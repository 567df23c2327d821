import SqlMigration.Proofs.Job.Formats
import SqlMigration.Proofs.Schema.KeyOrder
import SqlMigration.Proofs.Yaml.Keys

/-!
# Settings are accepted exactly

A settings document tells of settings when its two records have the fields they
need and no others, and each field has a value of its kind. Such a document is
accepted, and gives the settings it tells of. For any other document the report
has a complaint for each field that is missing, unknown or of the wrong kind,
and no more. The order of keys plays no part.
-/

set_option autoImplicit false

namespace SqlMigration

theorem Conversion.ofName?_eq_some_iff (s : Text) (c : Conversion) : ofName? s = some c ↔ s = c.name := by
  unfold ofName?
  exact Schema.find?_name (fun d => by cases d <;> decide) s c

namespace Settings

open Schema

/-! ### What a document tells -/

def IsConversion (v : Value) (c : Conversion) : Prop := v.scalar? = some (.text c.name)

inductive ConversionFlaw (v : Value) : List Scalar → Complaint → Prop
  | noConversion (other : ∀ c, ¬ IsConversion v c) : ConversionFlaw v [] (.noConversion v.display?)

def projectRules : List Rule := [.required "project_number" TextFlaw, .required "gcs_bucket" TextFlaw]

def TellsProject : Value → Project Text → Prop :=
  RecordGives ["project_number", "gcs_bucket"] fun entries p =>
    Stored entries "project_number" (IsText · p.number) ∧ Stored entries "gcs_bucket" (IsText · p.bucket)

def planRules : List Rule :=
  [.required "translation_type" ConversionFlaw, .required "location" TextFlaw,
    .orNull "default_database" TextFlaw, .orNull "schema_search_path" (ListFlaw TextFlaw),
    .optional "clean_up_tmp_files" FlagFlaw]

def TellsPlan : Value → Plan Text → Prop :=
  RecordGives planFields fun entries p =>
    Stored entries "translation_type" (IsConversion · p.conversion) ∧
    Stored entries "location" (IsText · p.location) ∧
    StoredOrNull entries "default_database" IsText p.database ∧
    StoredOrNull entries "schema_search_path" (ListGives IsText) p.searchPath ∧
    StoredOr true entries "clean_up_tmp_files" IsFlag p.cleanUp

/-- A value tells of settings. -/
def Tells : Value → Settings Text → Prop :=
  RecordGives ["gcp_settings", "translation_config"] fun entries s =>
    Stored entries "gcp_settings" (TellsProject · s.project) ∧
    Stored entries "translation_config" (TellsPlan · s.plan)

def rules : List Rule :=
  [.required "gcp_settings" (RecordFlaw projectRules), .required "translation_config" (RecordFlaw planRules)]

def Wrong : Flaw :=
  RecordFlaw rules

/-! ### Checks -/

theorem conversionFlaw_iff {v : Value} {way : List Scalar} {c : Complaint} :
    ConversionFlaw v way c ↔ (way = [] ∧ c = .noConversion v.display?) ∧ ∀ d, ¬ IsConversion v d := by
  constructor
  · rintro ⟨other⟩
    exact ⟨⟨rfl, rfl⟩, other⟩
  · rintro ⟨⟨rfl, rfl⟩, other⟩
    exact .noConversion other

theorem accepts_conversion (v : Value) (c : Conversion) : checkConversion v = .ok c ↔ IsConversion v c := by
  rw [checkConversion, IsConversion]
  cases v.scalar? with
  | none => simp
  | some s =>
    cases s with
    | text s =>
      rw [Option.some.injEq, Scalar.text.injEq, ← Conversion.ofName?_eq_some_iff]
      dsimp only
      cases Conversion.ofName? s <;> simp
    | _ => simp

theorem exact_conversion (P : Value → Prop) : Exact P checkConversion IsConversion ConversionFlaw where
  accepts {v} _ c := accepts_conversion v c
  answers {v} proper := by
    have shape : (∃ c, checkConversion v = .ok c) ∨
        checkConversion v = .error (.one (.noConversion v.display?)) := by
      unfold checkConversion
      dsimp only
      split
      · split
        · exact Or.inl ⟨_, rfl⟩
        · exact Or.inr rfl
      · exact Or.inr rfl
    rcases shape with ⟨c, ok⟩ | failed
    · rw [ok]
      rintro way d ⟨other⟩
      exact other c ((accepts_conversion v c).mp ok)
    · rw [failed]
      refine Answers.one fun way d => conversionFlaw_iff.trans (and_iff_left fun c given => ?_)
      rw [(accepts_conversion v c).mpr given] at failed
      cases failed
  nonnull given := isNull_of_scalar given Scalar.noConfusion

section Records

variable {P : Value → Prop} (distinct : ∀ v, P v → v.Distinct)

include distinct

theorem exact_project : Exact P checkProject TellsProject (RecordFlaw projectRules) := by
  refine exact_record projectRules distinct (by decide) (fun v none => by rw [checkProject, none])
    fun v entries inside fields => ?_
  rw [checkProject, inside]
  refine ⟨⟨_, .cons (required_answers (exact_text P) (fields _)).tells
    (.cons (required_answers (exact_text P) (fields _)).tells .nil), ?_⟩, fun p => ?_⟩
  · change Assembled (_ ++ unknownFields ["project_number", "gcs_bucket"] entries) _
    dsimp only [Rule.required]
    cases required text entries "project_number" <;> cases required text entries "gcs_bucket" <;>
      cases unknownFields ["project_number", "gcs_bucket"] entries <;> simp [Assembled, faultOf]
  · change _ ↔ unknownFields ["project_number", "gcs_bucket"] entries = [] ∧ _
    rw [← required_accepts (exact_text P) (fields _), ← required_accepts (exact_text P) (fields _)]
    dsimp only
    cases p
    cases required text entries "project_number" <;> cases required text entries "gcs_bucket" <;>
      cases unknownFields ["project_number", "gcs_bucket"] entries <;> simp

theorem exact_plan : Exact P checkPlan TellsPlan (RecordFlaw planRules) := by
  refine exact_record planRules distinct (by decide) (fun v none => by rw [checkPlan, none])
    fun v entries inside fields => ?_
  rw [checkPlan, inside]
  refine ⟨⟨_, .cons (required_answers (exact_conversion P) (fields _)).tells
    (.cons (required_answers (exact_text P) (fields _)).tells
    (.cons (nullable_answers (exact_text P) (fields _)).tells
    (.cons (nullable_answers (exact_listOf (exact_text P)) (fields _)).tells
    (.cons (withDefault_answers true (exact_flag P) (fields _)).tells .nil)))), ?_⟩, fun p => ?_⟩
  · change Assembled (_ ++ unknownFields planFields entries) _
    dsimp only [Rule.required, Rule.orNull, Rule.optional]
    cases required checkConversion entries "translation_type" <;> cases required text entries "location" <;>
      cases nullable text entries "default_database" <;>
      cases nullable (listOf text) entries "schema_search_path" <;>
      cases withDefault true flag entries "clean_up_tmp_files" <;>
      cases unknownFields planFields entries <;> simp [Assembled, faultOf]
  · change _ ↔ unknownFields planFields entries = [] ∧ _
    rw [← required_accepts (exact_conversion P) (fields _), ← required_accepts (exact_text P) (fields _),
      ← nullable_accepts (exact_text P) (fields _),
      ← nullable_accepts (exact_listOf (exact_text P)) (fields _),
      ← withDefault_accepts (exact_flag P) (fields _)]
    dsimp only
    cases p
    cases required checkConversion entries "translation_type" <;> cases required text entries "location" <;>
      cases nullable text entries "default_database" <;>
      cases nullable (listOf text) entries "schema_search_path" <;>
      cases withDefault true flag entries "clean_up_tmp_files" <;>
      cases unknownFields planFields entries <;> simp

theorem exact_check : Exact P check Tells Wrong := by
  refine exact_record rules distinct (by decide) (fun v none => by rw [check, none])
    fun v entries inside fields => ?_
  rw [check, inside]
  refine ⟨⟨_, .cons (required_answers (exact_project distinct) (fields _)).tells
    (.cons (required_answers (exact_plan distinct) (fields _)).tells .nil), ?_⟩, fun s => ?_⟩
  · change Assembled (_ ++ unknownFields ["gcp_settings", "translation_config"] entries) _
    dsimp only [Rule.required]
    cases required checkProject entries "gcp_settings" <;>
      cases required checkPlan entries "translation_config" <;>
      cases unknownFields ["gcp_settings", "translation_config"] entries <;> simp [Assembled, faultOf]
  · change _ ↔ unknownFields ["gcp_settings", "translation_config"] entries = [] ∧ _
    rw [← required_accepts (exact_project distinct) (fields _),
      ← required_accepts (exact_plan distinct) (fields _)]
    dsimp only
    cases s
    cases required checkProject entries "gcp_settings" <;>
      cases required checkPlan entries "translation_config" <;>
      cases unknownFields ["gcp_settings", "translation_config"] entries <;> simp

end Records

/-! ### Values that cannot be quoted -/

def GivesConversion (v x : Value) : Prop :=
  ∃ entries, v.entries? = some entries ∧ Stored entries "translation_config" fun plan =>
    ∃ fields, plan.entries? = some fields ∧ Value.field? fields "translation_type" = some x

/-- The value that is given for the conversion has an integer in it that is too long to be quoted. -/
def Unquotable (v : Value) : Prop := ∃ x, GivesConversion v x ∧ ∃ y, x.HasPart y ∧ y.Long

theorem GivesConversion.display? {content : Bytes} {v x : Value} (read : Yaml.read content = .ok v)
    (given : GivesConversion v x) : x.display? = none ↔ ∃ y, x.HasPart y ∧ y.Long := by
  rcases Yaml.read_eq_ok read with rfl | ⟨heap, i, rfl, _⟩
  · obtain ⟨_, inside, _⟩ := given
    cases inside
  · obtain ⟨entries, inside, plan, stored, fields, inside', stored'⟩ := given
    have within := (Value.Within.place (i := i) (h := heap) .refl).entry inside (Value.mem_of_field? stored)
    obtain ⟨_, j, rfl, reached⟩ := within
    obtain ⟨_, k, rfl, _⟩ := (Value.Within.place reached).entry inside' (Value.mem_of_field? stored')
    exact Value.display?_eq_none

theorem tellable_project : Tellable (RecordFlaw projectRules) :=
  tellable_record (by simp [projectRules, Rule.required, tellable_text])

theorem untold_plan {v : Value} {way : List Scalar} (wrong : RecordFlaw planRules v way (.noConversion none)) :
    ∃ fields x, v.entries? = some fields ∧ Value.field? fields "translation_type" = some x ∧
      x.display? = none := by
  obtain ⟨rule, mem, fields, x, rest, inside, stored, _, wrong⟩ := wrong.untold rfl
  have others : ∀ rule ∈ planRules.tail, Tellable rule.flaw := by
    simp [planRules, Rule.required, Rule.orNull, Rule.optional, tellable_text, tellable_flag,
      tellable_list tellable_text]
  rcases List.mem_cons.mp mem with rfl | later
  · obtain ⟨⟨_, same⟩, _⟩ := conversionFlaw_iff.mp wrong
    exact ⟨fields, x, inside, stored, (Complaint.noConversion.inj same).symm⟩
  · cases others rule later x rest _ wrong

theorem untold_iff {content : Bytes} {v : Value} (read : Yaml.read content = .ok v) :
    (∃ way, Wrong v way (.noConversion none)) ↔ Unquotable v := by
  constructor
  · rintro ⟨way, wrong⟩
    obtain ⟨rule, mem, entries, plan, rest, inside, stored, _, wrong⟩ := wrong.untold rfl
    simp only [rules, List.mem_cons, List.not_mem_nil, or_false] at mem
    rcases mem with rfl | rfl
    · cases tellable_project plan rest _ wrong
    · obtain ⟨fields, x, inside', stored', hidden⟩ := untold_plan wrong
      have given : GivesConversion v x := ⟨entries, inside, plan, stored, fields, inside', stored'⟩
      exact ⟨x, given, (given.display? read).mp hidden⟩
  · rintro ⟨x, given, long⟩
    have hidden := (given.display? read).mpr long
    have scalar (s : Scalar) (known : x.scalar? = some s) : s.display? = none := by
      rw [Value.display?] at hidden
      rw [Value.scalar?] at known
      cases layer : x.layer <;> simp_all
    have other (c : Conversion) : ¬ IsConversion x c := by
      intro known
      cases scalar _ known
    have nonnull : isNull x = false := by
      rw [← Bool.not_eq_true, isNull_iff]
      intro known
      cases scalar _ known
    have flaw : ConversionFlaw x [] (.noConversion none) :=
      conversionFlaw_iff.mpr ⟨⟨rfl, by rw [hidden]⟩, other⟩
    obtain ⟨entries, inside, plan, stored, fields, inside', stored'⟩ := given
    have broken : (Rule.required "translation_type" ConversionFlaw).Broken fields [] (.noConversion none) :=
      .within stored' nonnull flaw
    have flawed : RecordFlaw planRules plan [.text "translation_type"] (.noConversion none) :=
      .field inside' List.mem_cons_self broken
    have broken' : (Rule.required "translation_config" (RecordFlaw planRules)).Broken entries
        [.text "translation_type"] (.noConversion none) :=
      .within stored (isNull_of_entries inside') flawed
    exact ⟨_, .field inside (List.mem_cons_of_mem _ List.mem_cons_self) broken'⟩

/-! ### The order of keys -/

section Order

variable {R : Value → Value → Prop}

section Stirring

variable (h : Stirring R)

include h

theorem keeps_conversion : Keeps R IsConversion := by
  intro v w r c given
  rw [IsConversion, ← h.scalar r]
  exact given

theorem keeps_project : Keeps R TellsProject := by
  rintro v w r p ⟨entries, inside, only, number, bucket⟩
  obtain ⟨fields, inside', same⟩ := related_some (h.entries r) inside
  have text (s : Text) (x y : Value) (r' : R x y) : IsText x s → IsText y s := keeps_text h x y r' s
  exact ⟨fields, inside', same.only only, keeps_stored (text _) same number,
    keeps_stored (text _) same bucket⟩

theorem stirs_plan {v w : Value} (r : R v w) {p : Plan Text} (told : TellsPlan v p) :
    ∃ path, Option.Rel List.Perm p.searchPath path ∧ TellsPlan w { p with searchPath := path } := by
  obtain ⟨entries, inside, only, conversion, location, database, searchPath, cleanUp⟩ := told
  obtain ⟨fields, inside', same⟩ := related_some (h.entries r) inside
  obtain ⟨path, perm, searchPath'⟩ := stirs_storedOrNull h (keeps_text h) same searchPath
  exact ⟨path, perm, fields, inside', same.only only,
    keeps_stored (fun x y r' => keeps_conversion h x y r' _) same conversion,
    keeps_stored (fun x y r' => keeps_text h x y r' _) same location,
    keeps_storedOrNull h (keeps_text h) same database, searchPath', keeps_storedOr (keeps_flag h) same cleanUp⟩

theorem stirs_tells {v w : Value} (r : R v w) {s : Settings Text} (told : Tells v s) :
    ∃ path, Option.Rel List.Perm s.plan.searchPath path ∧
      Tells w { s with plan := { s.plan with searchPath := path } } := by
  obtain ⟨entries, inside, only, project, plan, stored, told⟩ := told
  obtain ⟨fields, inside', same⟩ := related_some (h.entries r) inside
  obtain ⟨plan', stored', r'⟩ := same.field?_some stored
  obtain ⟨path, perm, told'⟩ := stirs_plan h r' told
  exact ⟨path, perm, fields, inside', same.only only,
    keeps_stored (fun x y r' => keeps_project h x y r' _) same project, plan', stored', told'⟩

end Stirring

variable (h : Reordering R)

include h

theorem carries_conversion : Carries R ConversionFlaw := by
  rintro v w r way c ⟨other⟩
  exact ⟨_, .noConversion fun d given => other d (keeps_conversion h.flip.stirring w v r d given),
    .noConversion _ _⟩

theorem keeps_plan : Keeps R TellsPlan := by
  rintro v w r p ⟨entries, inside, only, conversion, location, database, searchPath, cleanUp⟩
  obtain ⟨fields, inside', same⟩ := related_some (h.entries r) inside
  have text := keeps_text h.stirring
  exact ⟨fields, inside', same.only only,
    keeps_stored (fun x y r' => keeps_conversion h.stirring x y r' _) same conversion,
    keeps_stored (fun x y r' => text x y r' _) same location,
    keeps_storedOrNull h.stirring text same database,
    keeps_storedOrNull h.stirring (keeps_list h text) same searchPath,
    keeps_storedOr (keeps_flag h.stirring) same cleanUp⟩

theorem keeps_tells : Keeps R Tells := by
  rintro v w r s ⟨entries, inside, only, project, plan⟩
  obtain ⟨fields, inside', same⟩ := related_some (h.entries r) inside
  exact ⟨fields, inside', same.only only,
    keeps_stored (fun x y r' => keeps_project h.stirring x y r' _) same project,
    keeps_stored (fun x y r' => keeps_plan h x y r' _) same plan⟩

theorem carries_wrong : Carries R Wrong := by
  have project : Carries R (RecordFlaw projectRules) :=
    carries_record h (by simp [projectRules, Rule.required, carries_text h])
  have plan : Carries R (RecordFlaw planRules) :=
    carries_record h (by
      simp [planRules, Rule.required, Rule.orNull, Rule.optional, carries_conversion h, carries_text h,
        carries_flag h, carries_list h (carries_text h)])
  exact carries_record h (by simp [rules, Rule.required, project, plan])

theorem keeps_unquotable {v w : Value} (r : R v w) (given : Unquotable v) : Unquotable w := by
  obtain ⟨x, ⟨entries, inside, plan, stored, fields, inside', stored'⟩, y, part, n, known, long⟩ := given
  obtain ⟨es, inside₁, same⟩ := related_some (h.entries r) inside
  obtain ⟨plan', stored₁, r'⟩ := same.field?_some stored
  obtain ⟨fs, inside₂, same'⟩ := related_some (h.entries r') inside'
  obtain ⟨x', stored₂, r''⟩ := same'.field?_some stored'
  obtain ⟨y', part', scalar⟩ := h.scalar_part r'' part
  exact ⟨x', ⟨es, inside₁, plan', stored₁, fs, inside₂, stored₂⟩, y', part', n, scalar.trans known, long⟩

end Order

end Settings

/-! ### Outcomes -/

/-- Complaints at the same places, and the same but for a text that they quote. -/
def Report.Like (r r' : Report) : Prop :=
  (∀ way c, r.At way c → ∃ d, r'.At way d ∧ c.Like d) ∧ ∀ way d, r'.At way d → ∃ c, r.At way c ∧ d.Like c

namespace Settings

open Schema

/-- How the reading of a document of settings ends. -/
inductive Outcome (v : Value) : Except Failure (Settings Text) → Prop
  | accepted {s : Settings Text} (told : ∀ t, Tells v t ↔ t = s) (clear : ∀ way c, ¬ Wrong v way c) :
      Outcome v (.ok s)
  | refused {report : Report} (nothing : ∀ s, ¬ Tells v s) (quotable : ¬ Unquotable v) (tidy : report.Tidy)
      (exact : ∀ way c, report.At way c ↔ Wrong v way c) : Outcome v (.error (.invalid report))
  | unquotable (nothing : ∀ s, ¬ Tells v s) (long : Unquotable v) : Outcome v (.error .longNumber)

theorem outcome {content : Bytes} {v : Value} (read : Yaml.read content = .ok v) :
    Outcome v (Format.settings.ofBytes content) := by
  have exact : Exact Value.Distinct check Tells Wrong := exact_check (fun _ distinct => distinct)
  have value : Format.settings.ofBytes content = Format.checked check v :=
    Format.ofBytes_eq (Format.settings_value.mpr read)
  have distinct := Yaml.distinct_read read
  rw [value]
  by_cases some : ∃ s, Tells v s
  · obtain ⟨s, told⟩ := some
    have ok := (Format.checked_eq_ok_iff exact distinct s).mpr told
    rw [ok]
    refine .accepted (fun t => ?_) (exact.clear distinct told)
    rw [← Format.checked_eq_ok_iff exact distinct t, ok, Except.ok.injEq, eq_comm]
  · have nothing (s : Settings Text) : ¬ Tells v s := fun told => some ⟨s, told⟩
    obtain ⟨report, refused, tidy, complaints⟩ := Format.checked_refuses exact distinct nothing
    have hidden : report.isTold = false ↔ Unquotable v := by
      rw [← untold_iff read, ← Bool.not_eq_true, Report.isTold_iff]
      simp only [not_forall, exists_prop, Bool.not_eq_true, Complaint.isTold_eq_false, complaints]
      constructor
      · rintro ⟨way, _, wrong, rfl⟩
        exact ⟨way, wrong⟩
      · rintro ⟨way, wrong⟩
        exact ⟨way, _, wrong, rfl⟩
    rw [refused, Failure.ofReport]
    cases told : report.isTold with
    | false => exact .unquotable nothing (hidden.mp told)
    | true =>
      refine .refused nothing (fun long => ?_) tidy complaints
      rw [hidden.mpr long] at told
      cases told

/-- The same settings, or reports with the same complaints but for a text that they quote. -/
inductive SameOutcome : Except Failure (Settings Text) → Except Failure (Settings Text) → Prop
  | accepted (s : Settings Text) : SameOutcome (.ok s) (.ok s)
  | refused {report report' : Report} (like : report.Like report') :
      SameOutcome (.error (.invalid report)) (.error (.invalid report'))
  | unquotable : SameOutcome (.error .longNumber) (.error .longNumber)

theorem Outcome.same {v w : Value} {a b : Except Failure (Settings Text)} (first : Outcome v a) (second : Outcome w b)
    (reordered : Reordered v w) : SameOutcome a b := by
  obtain ⟨R, h, r⟩ := reordered
  have back : flip R w v := r
  cases first with
  | @accepted s told _ =>
    have told' := keeps_tells h v w r s ((told s).mpr rfl)
    cases second with
    | accepted other _ =>
      cases (other s).mp told'
      exact .accepted s
    | refused nothing _ _ _ => exact absurd told' (nothing s)
    | unquotable nothing _ => exact absurd told' (nothing s)
  | @refused report nothing quotable _ exact =>
    cases second with
    | @accepted s told _ => exact absurd (keeps_tells h.flip w v back s ((told s).mpr rfl)) (nothing s)
    | @refused report' _ _ _ exact' =>
      refine .refused ⟨fun way c said => ?_, fun way d said => ?_⟩
      · obtain ⟨d, wrong, like⟩ := carries_wrong h v w r way c ((exact way c).mp said)
        exact ⟨d, (exact' way d).mpr wrong, like⟩
      · obtain ⟨c, wrong, like⟩ := carries_wrong h.flip w v back way d ((exact' way d).mp said)
        exact ⟨c, (exact way c).mpr wrong, like⟩
    | unquotable _ long => exact absurd (keeps_unquotable h.flip back long) quotable
  | unquotable nothing long =>
    cases second with
    | @accepted s told _ => exact absurd (keeps_tells h.flip w v back s ((told s).mpr rfl)) (nothing s)
    | refused _ quotable _ _ => exact absurd (keeps_unquotable h r long) quotable
    | unquotable _ _ => exact .unquotable

/-- With the members of a set in another order a document gives the same settings, but for the order of the
search path. -/
theorem accepted_stirred {content content' : Bytes} {v w : Value} (read : Yaml.read content = .ok v)
    (read' : Yaml.read content' = .ok w) (stirred : Stirred v w) {s : Settings Text}
    (accepted : Format.settings.ofBytes content = .ok s) :
    ∃ path, Option.Rel List.Perm s.plan.searchPath path ∧
      Format.settings.ofBytes content' = .ok { s with plan := { s.plan with searchPath := path } } := by
  obtain ⟨R, h, r⟩ := stirred
  have given := outcome read
  rw [accepted] at given
  cases given with
  | accepted told _ =>
    obtain ⟨path, perm, told'⟩ := stirs_tells h r ((told s).mpr rfl)
    refine ⟨path, perm, ?_⟩
    have given' := outcome read'
    generalize Format.settings.ofBytes content' = result at given'
    cases given' with
    | accepted other _ => rw [(other _).mp told']
    | refused nothing _ _ _ => exact absurd told' (nothing _)
    | unquotable nothing _ => exact absurd told' (nothing _)

/-- A document is accepted exactly when it tells of settings, and gives them. Otherwise the report says
exactly what is wrong, unless it would have to quote a number that is too long. The order of keys plays no
part. -/
theorem accepted_exactly {content : Bytes} {v : Value} (read : Yaml.read content = .ok v) :
    (∀ s, Format.settings.ofBytes content = .ok s ↔ Tells v s) ∧
      ((∀ s, ¬ Tells v s) → ¬ Unquotable v →
        ∃ report, Format.settings.ofBytes content = .error (.invalid report) ∧ report.Tidy ∧
          ∀ way c, report.At way c ↔ Wrong v way c) ∧
      (Unquotable v → Format.settings.ofBytes content = .error .longNumber) ∧
      ∀ content' w, Yaml.read content' = .ok w → Reordered v w →
        SameOutcome (Format.settings.ofBytes content) (Format.settings.ofBytes content') := by
  have here := outcome read
  refine ⟨fun s => ?_, fun nothing quotable => ?_, fun long => ?_, fun content' w read' reordered =>
    here.same (outcome read') reordered⟩
  · generalize Format.settings.ofBytes content = result at here
    cases here with
    | accepted told _ => rw [Except.ok.injEq, told s, eq_comm]
    | refused nothing _ _ _ => simp [nothing s]
    | unquotable nothing _ => simp [nothing s]
  · generalize Format.settings.ofBytes content = result at here
    cases here with
    | @accepted s told _ => exact absurd ((told s).mpr rfl) (nothing s)
    | refused _ _ tidy exact => exact ⟨_, rfl, tidy, exact⟩
    | unquotable _ long => exact absurd long quotable
  · generalize Format.settings.ofBytes content = result at here
    cases here with
    | accepted _ clear =>
      obtain ⟨way, wrong⟩ := (untold_iff read).mpr long
      exact absurd wrong (clear way _)
    | refused _ quotable _ _ => exact absurd long quotable
    | unquotable _ _ => rfl

def straight : Bytes :=
  Format.ofLines ["gcp_settings:", "  project_number: '1'", "  gcs_bucket: b", "translation_config:",
    "  translation_type:", "    Translation_Bteq2BQ", "  location: us", "  default_database: null",
    "  schema_search_path: [a, !!binary Yg==]"]

def shuffled : Bytes :=
  Format.ofLines ["translation_config:", "  schema_search_path: [a, !!binary Yg==]", "  location: us",
    "  default_database: null", "  translation_type:", "    Translation_Bteq2BQ", "gcp_settings:",
    "  gcs_bucket: b", "  project_number: '1'"]

def flawed : Bytes :=
  Format.ofLines ["translation_config:", "  size: 1", "  schema_search_path: [a, null]",
    "  translation_type: [x]", "gcp_settings: b"]

theorem accepted_exactly_shuffled :
    (∃ v w, Yaml.read straight = .ok v ∧ Yaml.read shuffled = .ok w ∧ Reordered v w ∧
      Tells v ⟨⟨"1", "b"⟩, ⟨.bteq, "us", none, some ["a", "b"], true⟩⟩ ∧
      SameOutcome (Format.settings.ofBytes straight) (Format.settings.ofBytes shuffled)) ∧
    ∃ v report, Yaml.read flawed = .ok v ∧ (∀ s, ¬ Tells v s) ∧ ¬ Unquotable v ∧
      Format.settings.ofBytes flawed = .error (.invalid report) ∧ ∀ way c, report.At way c ↔ Wrong v way c := by
  have told : (Format.settings.ofBytes straight).toOption =
      some (⟨⟨"1", "b"⟩, ⟨.bteq, "us", none, some ["a", "b"], true⟩⟩ : Settings Text) := by
    decide +kernel
  have alike : ((Yaml.read straight).toOption.bind fun v => (Yaml.read shuffled).toOption.map
      (v.alike [(0, 0), (2, 14), (4, 18), (6, 16), (8, 2), (10, 12), (12, 8), (14, 10), (16, 4), (17, 5),
        (18, 6)])) = some true := by decide +kernel
  have refused : Format.settings.refuses flawed = true := by decide +kernel
  constructor
  · obtain ⟨v, w, read, read', reordered⟩ := reordered_of_readings alike
    have accepted := (Format.value_of_ofBytes told).1
    obtain ⟨given, _, _, order⟩ := accepted_exactly read
    exact ⟨v, w, read, read', reordered, (given _).mp accepted, order shuffled w read' reordered⟩
  · obtain ⟨v, report, value, failed⟩ := Format.invalid_of_refuses refused
    have read := Format.settings_value.mp value
    obtain ⟨given, complaints, hidden, _⟩ := accepted_exactly read
    have nothing (s : Settings Text) : ¬ Tells v s := fun told => nomatch failed.symm.trans ((given s).mpr told)
    have quotable : ¬ Unquotable v := fun long => nomatch failed.symm.trans (hidden long)
    obtain ⟨report, failed, _, exact⟩ := complaints nothing quotable
    exact ⟨v, report, read, nothing, quotable, failed, exact⟩

def givenNumber (v : Value) : Option Scalar := do
  let project ← Value.field? (← v.entries?) "gcp_settings"
  let number ← Value.field? (← project.entries?) "project_number"
  number.scalar?

def binaryNumber : Bytes :=
  Format.ofLines ["gcp_settings:", "  project_number: !!binary MQ==", "  gcs_bucket: b",
    "translation_config:", "  location: us", "  translation_type:", "    Translation_Bteq2BQ"]

/-- A document whose project number is no text is accepted all the same. -/
theorem binary_number_accepted :
    ∃ v number, Yaml.read binaryNumber = .ok v ∧ givenNumber v = some number ∧ (∀ s, number ≠ .text s) ∧
      ∃ s, Format.settings.ofBytes binaryNumber = .ok s := by
  have facts : (Yaml.read binaryNumber).toOption.map (fun v => (givenNumber v, (check v).toOption.isSome)) =
      some (some (.bytes [0x31]), true) := by decide +kernel
  obtain ⟨v, read, known⟩ := Effect.ok_of_toOption_map facts
  obtain ⟨given, accepted⟩ := Prod.mk.inj known
  refine ⟨v, _, read, given, fun _ => Scalar.noConfusion, ?_⟩
  rw [Format.ofBytes_eq (Format.settings_value.mpr read)]
  change ∃ s, (check v).mapError _ = .ok s
  cases hc : check v with
  | error report =>
    rw [hc] at accepted
    cases accepted
  | ok s => exact ⟨s, rfl⟩

end Settings

end SqlMigration
