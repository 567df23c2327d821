import SqlMigration.Proofs.Document.JsonParts
import SqlMigration.Proofs.Job.Formats
import SqlMigration.Proofs.Job.Order

/-!
# Name mappings are accepted exactly and sent whole

A mapping document tells of the entries in its list, one by one and in order,
when each has a source with a kind and a target, and nothing else but texts for
the parts of the two names. Such a document is accepted, unless a text holds half
of a surrogate pair: such a text cannot be sent, and reading stops at it even
where something else in the document is wrong. For any other document the report
has a complaint for each position and field that is wrong, and no more. A request
to start a job carries the entries so that all of them can be read back, and has a
field for them exactly when there are any.
-/

set_option autoImplicit false

namespace SqlMigration.NameMapping

open Schema

/-! ### What a document tells -/

def IsKind (v : Value) (k : Kind) : Prop := IsString v k.name

inductive KindFlaw (v : Value) : List Scalar → Complaint → Prop
  | notText (other : ∀ s, ¬ IsString v s) : KindFlaw v [] .notText
  | notOneOf {s : Text} (text : IsString v s) (other : ∀ k : Kind, s ≠ k.name) :
      KindFlaw v [] (.notOneOf (Kind.all.map Kind.name))

def TellsName (entries : List (Scalar × Value)) (n : Name Text) : Prop :=
  let tells (name : String) (t : Text) := StoredOr ("" : Text) entries name IsString t
  tells "database" n.database ∧ tells "schema" n.schema ∧ tells "relation" n.relation ∧
    tells "attribute" n.column

def nameRules : List Rule :=
  [.optional "database" StringFlaw, .optional "schema" StringFlaw, .optional "relation" StringFlaw,
    .optional "attribute" StringFlaw]

def TellsSource : Value → Kind × Name Text → Prop :=
  RecordGives ["type", "database", "schema", "relation", "attribute"] fun entries s =>
    Stored entries "type" (IsKind · s.1) ∧ TellsName entries s.2

def sourceRules : List Rule := .required "type" KindFlaw :: nameRules

def TellsTarget : Value → Name Text → Prop :=
  RecordGives ["database", "schema", "relation", "attribute"] TellsName

def TellsEntry : Value → Entry Text → Prop :=
  RecordGives ["source", "target"] fun entries e =>
    Stored entries "source" (TellsSource · (e.kind, e.source)) ∧
    Stored entries "target" (TellsTarget · e.target)

def entryRules : List Rule :=
  [.required "source" (RecordFlaw sourceRules), .required "target" (RecordFlaw nameRules)]

def Lists : Value → List (Entry Text) → Prop :=
  RecordGives ["name_map"] fun entries es => Stored entries "name_map" (ListGives TellsEntry · es)

def Name.texts (n : Name String) : Name Text := ⟨n.database, n.schema, n.relation, n.column⟩

def Entry.texts (e : Entry String) : Entry Text := ⟨e.kind, e.source.texts, e.target.texts⟩

/-- A value tells of a mapping: it lists the entries, and no text in them holds a half. -/
def Tells (v : Value) (m : NameMapping) : Prop := Lists v (m.map Entry.texts)

def rules : List Rule := [.required "name_map" (ListFlaw (RecordFlaw entryRules))]

def Wrong : Flaw := RecordFlaw rules

def Name.parts (n : Name Text) : List Text := [n.database, n.schema, n.relation, n.column]

/-- An entry has a name that is right in itself, whatever else is in the entry. -/
def Names (v : Value) (n : Name Text) : Prop :=
  ∃ entries, v.entries? = some entries ∧
    ((∃ k, Stored entries "source" (TellsSource · (k, n))) ∨ Stored entries "target" (TellsTarget · n))

/-- A text holds a half and is part of a name that is right in itself. -/
def Unsendable (v : Value) (t : Text) : Prop :=
  ¬ t.Whole ∧ ∃ entries, v.entries? = some entries ∧ Stored entries "name_map" fun list =>
    ∃ items, list.items? = some items ∧ ∃ x ∈ items, ∃ n, Names x n ∧ t ∈ n.parts

/-! ### Checks -/

theorem Kind.find?_eq_some_iff (s : Text) (k : Kind) :
    Kind.all.find? (fun b => (b.name : Text) = s) = some k ↔ s = k.name :=
  find?_name (fun b => by cases b <;> decide) s k

theorem isString_inj {v : Value} {s t : Text} (h : IsString v s) : IsString v t ↔ s = t := by
  rw [IsString, h, Option.some.injEq, Scalar.text.injEq]

theorem exact_kind {P : Value → Prop} (plain : ∀ v, P v → v.NotBinary) :
    Exact P checkKind IsKind KindFlaw where
  accepts {v} proper k := by
    have texts := (exact_string plain).accepts proper
    rw [checkKind, IsKind]
    cases ht : text v with
    | error r => simp [← texts, ht]
    | ok s =>
      rw [isString_inj ((texts s).mp ht), ← Kind.find?_eq_some_iff]
      dsimp only
      cases Kind.all.find? (fun b => (b.name : Text) = s) <;> simp
  answers {v} proper := by
    have texts := (exact_string plain).accepts proper
    have answer := (exact_string plain).answers proper
    rw [checkKind]
    cases ht : text v with
    | error r =>
      rw [ht] at answer
      have refused : Answers (StringFlaw v) (.error r : Except Report Kind) := answer
      refine refused.congr fun way c => ⟨?_, ?_⟩
      · rintro ⟨other⟩
        exact .notText other
      · rintro (other | ⟨given, _⟩)
        · exact .notText other
        · cases ht.symm.trans ((texts _).mpr given)
    | ok s =>
      have given := (texts s).mp ht
      dsimp only
      cases found : Kind.all.find? (fun b => (b.name : Text) = s) with
      | some k =>
        rintro way c (other | ⟨given', other⟩)
        · exact other s given
        · cases (isString_inj given).mp given'
          exact other k ((Kind.find?_eq_some_iff s k).mp found)
      | none =>
        refine Answers.one fun way c => ⟨?_, ?_⟩
        · rintro (other | _)
          · exact absurd given (other s)
          · exact ⟨rfl, rfl⟩
        · rintro ⟨rfl, rfl⟩
          refine .notOneOf given fun k same => ?_
          cases found.symm.trans ((Kind.find?_eq_some_iff s k).mpr same)
  nonnull given := isNull_of_scalar given Scalar.noConfusion

section Names

variable {entries : List (Scalar × Value)}

theorem faults_name :
    [faultOf "database" (part entries "database"), faultOf "schema" (part entries "schema"),
      faultOf "relation" (part entries "relation"), faultOf "attribute" (part entries "attribute")].flatten =
      faults (name entries) := by
  unfold name
  dsimp only
  cases part entries "database" <;> cases part entries "schema" <;> cases part entries "relation" <;>
    cases part entries "attribute" <;> rfl

theorem faults_of_name_error {r : List (Scalar × Report)} (h : name entries = .error r) : r ≠ [] := by
  unfold name at h
  dsimp only at h
  cases hd : part entries "database" <;> cases hs : part entries "schema" <;>
    cases hr : part entries "relation" <;> cases ha : part entries "attribute" <;>
    rw [hd, hs, hr, ha] at h <;> cases h <;> simp [faultOf]

theorem name_eq_ok_iff (n : Name Text) :
    name entries = .ok n ↔ part entries "database" = .ok n.database ∧ part entries "schema" = .ok n.schema ∧
      part entries "relation" = .ok n.relation ∧ part entries "attribute" = .ok n.column := by
  unfold name
  dsimp only
  cases n
  cases part entries "database" <;> cases part entries "schema" <;> cases part entries "relation" <;>
    cases part entries "attribute" <;> simp

theorem told_name {P : Value → Prop} (plain : ∀ v, P v → v.NotBinary)
    (fields : ∀ name x, Value.field? entries name = some x → x.Throughout P) :
    List.Forall₂ (Rule.Tells entries) nameRules
      [faultOf "database" (part entries "database"), faultOf "schema" (part entries "schema"),
        faultOf "relation" (part entries "relation"), faultOf "attribute" (part entries "attribute")] := by
  have tells (name : String) :
      (Rule.optional name StringFlaw).Tells entries (faultOf name (part entries name)) :=
    (withDefault_answers ("" : Text) (exact_string plain) (fields name)).tells
  exact .cons (tells _) (.cons (tells _) (.cons (tells _) (.cons (tells _) .nil)))

theorem name_eq_ok_iff_tells {P : Value → Prop} (plain : ∀ v, P v → v.NotBinary)
    (fields : ∀ name x, Value.field? entries name = some x → x.Throughout P) (n : Name Text) :
    name entries = .ok n ↔ TellsName entries n := by
  have tells (name : String) (s : Text) : part entries name = .ok s ↔ StoredOr ("" : Text) entries name IsString s :=
    withDefault_accepts (exact_string plain) (fields name) s
  rw [name_eq_ok_iff]
  exact and_congr (tells _ _) (and_congr (tells _ _) (and_congr (tells _ _) (tells _ _)))

end Names

section Records

variable {P : Value → Prop} (proper : ∀ v, P v → v.Plain)

include proper

theorem exact_source : Exact P checkSource TellsSource (RecordFlaw sourceRules) := by
  have plain (v : Value) (h : P v) : v.NotBinary := (proper v h).2
  refine exact_record sourceRules (fun v h => (proper v h).1) (by decide)
    (fun v none => by rw [checkSource, none]) fun v entries inside fields => ?_
  rw [checkSource, inside]
  refine ⟨⟨_, .cons (required_answers (exact_kind plain) (fields _)).tells (told_name plain fields), ?_⟩,
    fun s => ?_⟩
  · change Assembled (_ ++ unknownFields ("type" :: partNames) entries) _
    rw [List.flatten_cons, faults_name]
    dsimp only [Rule.required]
    cases named : name entries with
    | error r =>
      have some := faults_of_name_error named
      cases required checkKind entries "type" <;> cases unknownFields ("type" :: partNames) entries <;>
        simp [Assembled, faultOf, faults, some]
    | ok n =>
      cases required checkKind entries "type" <;> cases unknownFields ("type" :: partNames) entries <;>
        simp [Assembled, faultOf, faults]
  · change _ ↔ unknownFields ("type" :: partNames) entries = [] ∧ _
    rw [← required_accepts (exact_kind plain) (fields _), ← name_eq_ok_iff_tells plain fields]
    dsimp only
    cases s
    cases required checkKind entries "type" <;> cases name entries <;>
      cases unknownFields ("type" :: partNames) entries <;> simp

theorem exact_target : Exact P checkTarget TellsTarget (RecordFlaw nameRules) := by
  have plain (v : Value) (h : P v) : v.NotBinary := (proper v h).2
  refine exact_record nameRules (fun v h => (proper v h).1) (by decide)
    (fun v none => by rw [checkTarget, none]) fun v entries inside fields => ?_
  rw [checkTarget, inside]
  refine ⟨⟨_, told_name plain fields, ?_⟩, fun n => ?_⟩
  · change Assembled (_ ++ unknownFields partNames entries) _
    rw [faults_name]
    dsimp only
    cases named : name entries with
    | error r =>
      have some := faults_of_name_error named
      cases unknownFields partNames entries <;> simp [Assembled, faults, some]
    | ok n => cases unknownFields partNames entries <;> simp [Assembled, faults]
  · change _ ↔ unknownFields partNames entries = [] ∧ _
    rw [← name_eq_ok_iff_tells plain fields]
    dsimp only
    cases name entries <;> cases unknownFields partNames entries <;> simp

theorem exact_entry : Exact P checkEntry TellsEntry (RecordFlaw entryRules) := by
  refine exact_record entryRules (fun v h => (proper v h).1) (by decide)
    (fun v none => by rw [checkEntry, none]) fun v entries inside fields => ?_
  rw [checkEntry, inside]
  refine ⟨⟨_, .cons (required_answers (exact_source proper) (fields _)).tells
    (.cons (required_answers (exact_target proper) (fields _)).tells .nil), ?_⟩, fun e => ?_⟩
  · change Assembled (_ ++ unknownFields ["source", "target"] entries) _
    dsimp only [Rule.required]
    cases required checkSource entries "source" <;> cases required checkTarget entries "target" <;>
      cases unknownFields ["source", "target"] entries <;> simp [Assembled, faultOf]
  · change _ ↔ unknownFields ["source", "target"] entries = [] ∧ _
    rw [← required_accepts (exact_source proper) (fields _),
      ← required_accepts (exact_target proper) (fields _)]
    dsimp only
    cases e
    cases required checkSource entries "source" <;> cases required checkTarget entries "target" <;>
      cases unknownFields ["source", "target"] entries <;> simp [Prod.ext_iff, and_assoc]

theorem exact_check : Exact P check Lists Wrong := by
  refine exact_record rules (fun v h => (proper v h).1) (by decide) (fun v none => by rw [check, none])
    fun v entries inside fields => ?_
  rw [check, inside]
  have list := exact_listOf (exact_entry proper)
  refine ⟨⟨_, .cons (required_answers list (fields _)).tells .nil, ?_⟩, fun m => ?_⟩
  · change Assembled (_ ++ unknownFields ["name_map"] entries) _
    dsimp only [Rule.required]
    cases required (listOf checkEntry) entries "name_map" <;> cases unknownFields ["name_map"] entries <;>
      simp [Assembled, faultOf]
  · change _ ↔ unknownFields ["name_map"] entries = [] ∧ _
    rw [← required_accepts list (fields _)]
    dsimp only
    cases required (listOf checkEntry) entries "name_map" <;> cases unknownFields ["name_map"] entries <;>
      simp

end Records

theorem tellable_wrong : Tellable Wrong := by
  have kind : Tellable KindFlaw := by rintro v way c (_ | _) <;> rfl
  have source : Tellable (RecordFlaw sourceRules) :=
    tellable_record (by simp [sourceRules, nameRules, Rule.required, Rule.optional, kind, tellable_string])
  have target : Tellable (RecordFlaw nameRules) :=
    tellable_record (by simp [nameRules, Rule.optional, tellable_string])
  have entry : Tellable (RecordFlaw entryRules) :=
    tellable_record (by simp [entryRules, Rule.required, source, target])
  exact tellable_record (by simp [rules, Rule.required, tellable_list entry])

/-! ### Names that cannot be sent -/

theorem Name.strings_eq_ok_iff {n : Name Text} {s : Name String} : n.strings = .ok s ↔ n = s.texts := by
  constructor
  · intro h
    obtain ⟨database, hd, h⟩ := Effect.bind_eq_ok h
    obtain ⟨schema, hs, h⟩ := Effect.bind_eq_ok h
    obtain ⟨relation, hr, h⟩ := Effect.bind_eq_ok h
    obtain ⟨column, hc, h⟩ := Effect.bind_eq_ok h
    cases h
    cases n
    simp only [Text.string_eq_ok_iff] at hd hs hr hc
    rw [hd, hs, hr, hc, texts]
  · rintro rfl
    simp only [strings, texts, Text.string_eq_ok_iff.mpr rfl]
    rfl

theorem Name.part_of_strings_error {n : Name Text} {t : Text} (h : n.strings = .error t) :
    t ∈ n.parts ∧ ¬ t.Whole := by
  have part {u : Text} (h : u.string = .error t) (mem : u ∈ n.parts) : t ∈ n.parts ∧ ¬ t.Whole := by
    obtain ⟨rfl, half⟩ := Text.string_eq_error_iff.mp h
    exact ⟨mem, half⟩
  rcases Effect.bind_eq_error h with h | ⟨_, _, h⟩
  · exact part h (by simp [parts])
  rcases Effect.bind_eq_error h with h | ⟨_, _, h⟩
  · exact part h (by simp [parts])
  rcases Effect.bind_eq_error h with h | ⟨_, _, h⟩
  · exact part h (by simp [parts])
  rcases Effect.bind_eq_error h with h | ⟨_, _, h⟩
  · exact part h (by simp [parts])
  · cases h

theorem Name.exists_texts {n : Name Text} (whole : ∀ t ∈ n.parts, t.Whole) :
    ∃ s : Name String, n = s.texts := by
  cases h : n.strings with
  | ok s => exact ⟨s, strings_eq_ok_iff.mp h⟩
  | error t =>
    obtain ⟨part, half⟩ := part_of_strings_error h
    exact absurd (whole t part) half

theorem Name.whole_texts (s : Name String) : ∀ t ∈ s.texts.parts, t.Whole := by
  simp [texts, parts, Text.whole_ofString]

theorem mapM_strings (m : NameMapping) : (m.map Entry.texts).mapM Entry.strings = .ok m := by
  induction m with
  | nil => rfl
  | cons e m ih =>
    have first : e.texts.strings = .ok e := by
      simp only [Entry.strings, Entry.texts, Name.strings_eq_ok_iff.mpr rfl]
      rfl
    rw [List.map_cons, List.mapM_cons, first, ih]
    rfl

section Unmade

variable {outcome : Except Report (Name Text)} {n : Name Text} {t : Text}

theorem unmade?_eq_some (h : unmade? outcome = some t) :
    ∃ n, outcome = .ok n ∧ t ∈ n.parts ∧ ¬ t.Whole := by
  cases outcome with
  | error r => cases h
  | ok n =>
    rw [unmade?] at h
    split at h
    · cases h
    · next failed =>
      cases h
      exact ⟨n, rfl, Name.part_of_strings_error failed⟩

theorem unmade?_eq_none (h : unmade? outcome = none) (accepted : outcome = .ok n) :
    ∀ t ∈ n.parts, t.Whole := by
  rw [accepted, unmade?] at h
  split at h
  · next s made =>
    rw [Name.strings_eq_ok_iff.mp made]
    exact s.whole_texts
  · cases h

variable {v : Value} (plain : v.Throughout Value.Plain)

include plain

theorem names_iff {entries : List (Scalar × Value)} (record : v.entries? = some entries) :
    Names v n ↔ (required checkSource entries "source").map Prod.snd = .ok n ∨
      required checkTarget entries "target" = .ok n := by
  have source : (required checkSource entries "source").map Prod.snd = .ok n ↔
      ∃ k, required checkSource entries "source" = .ok (k, n) := by
    cases required checkSource entries "source" with
    | error r => simp [Except.map]
    | ok s => simp [Except.map, Prod.ext_iff, eq_comm]
  simp only [source, required_accepts (exact_source fun _ plain => plain) fun _ => plain.field record,
    required_accepts (exact_target fun _ plain => plain) fun _ => plain.field record, Names, record,
    Option.some.injEq, exists_eq_left']

theorem name_of_tellsEntry {e : Entry Text} (told : TellsEntry v e) (named : Names v n) :
    n = e.source ∨ n = e.target := by
  obtain ⟨entries, record, _, source, target⟩ := told
  have names := (names_iff plain record).mp named
  rw [(required_accepts (exact_source fun _ plain => plain) (fun _ => plain.field record) _).mpr source,
    (required_accepts (exact_target fun _ plain => plain) (fun _ => plain.field record) _).mpr target] at names
  simpa [Except.map, eq_comm] using names

theorem entryUnmade?_eq_some (h : entryUnmade? v = some t) : ∃ n, Names v n ∧ t ∈ n.parts ∧ ¬ t.Whole := by
  rw [entryUnmade?] at h
  split at h
  · cases h
  · next entries record =>
    rcases Option.or_eq_some_iff.mp h with source | ⟨_, target⟩
    · obtain ⟨n, accepted, part⟩ := unmade?_eq_some source
      exact ⟨n, (names_iff plain record).mpr (Or.inl accepted), part⟩
    · obtain ⟨n, accepted, part⟩ := unmade?_eq_some target
      exact ⟨n, (names_iff plain record).mpr (Or.inr accepted), part⟩

theorem entryUnmade?_eq_none (h : entryUnmade? v = none) (named : Names v n) : ∀ t ∈ n.parts, t.Whole := by
  have ⟨entries, record, _⟩ := named
  rw [entryUnmade?, record] at h
  obtain ⟨source, target⟩ := Option.or_eq_none_iff.mp h
  rcases (names_iff plain record).mp named with accepted | accepted
  · exact unmade?_eq_none source accepted
  · exact unmade?_eq_none target accepted

theorem unsendable_of_textUnmade? (h : textUnmade? v = some t) : Unsendable v t := by
  rw [textUnmade?] at h
  split at h
  · cases h
  · next entries record =>
    split at h
    · cases h
    · next items listed =>
      obtain ⟨list, stored, itemized⟩ := Option.bind_eq_some_iff.mp listed
      obtain ⟨x, mem, unmade⟩ := List.exists_of_findSome?_eq_some h
      have within := (plain.field record stored).item itemized mem
      obtain ⟨n, named, part, half⟩ := entryUnmade?_eq_some within unmade
      exact ⟨half, entries, record, list, stored, items, itemized, x, mem, n, named, part⟩

theorem textUnmade?_eq_none (h : textUnmade? v = none) (t : Text) : ¬ Unsendable v t := by
  rintro ⟨half, entries, record, list, stored, items, itemized, x, mem, n, named, part⟩
  have listed : (Value.field? entries "name_map").bind Value.items? = some items := by
    rw [stored, Option.bind_some, itemized]
  simp only [textUnmade?, record, listed, List.findSome?_eq_none_iff] at h
  have within := (plain.field record stored).item itemized mem
  exact half (entryUnmade?_eq_none within (h x mem) named t part)

theorem sendable_of_tells {m : NameMapping} (told : Tells v m) (t : Text) : ¬ Unsendable v t := by
  rintro ⟨half, entries, record, list, stored, items, itemized, x, mem, n, named, part⟩
  obtain ⟨_, record', _, _, stored', _, itemized', each⟩ := told
  cases record.symm.trans record'
  cases stored.symm.trans stored'
  cases itemized.symm.trans itemized'
  have within := (plain.field record stored).item itemized mem
  obtain ⟨⟨i, bound⟩, rfl⟩ := List.mem_iff_get.mp mem
  have tells := each.get bound (each.length_eq ▸ bound)
  obtain ⟨e, _, same⟩ := List.mem_map.mp (List.get_mem _ ⟨i, each.length_eq ▸ bound⟩)
  rw [← same] at tells
  rcases name_of_tellsEntry within tells named with rfl | rfl
  · exact half (e.source.whole_texts t part)
  · exact half (e.target.whole_texts t part)

end Unmade

theorem entries_sendable {items : List Value} {es : List (Entry Text)} (each : List.Forall₂ TellsEntry items es)
    (whole : ∀ x ∈ items, ∀ n, Names x n → ∃ s : Name String, n = s.texts) :
    ∃ m : NameMapping, es = m.map Entry.texts := by
  induction each with
  | nil => exact ⟨[], rfl⟩
  | @cons x e items es first _ ih =>
    obtain ⟨m, rfl⟩ := ih (fun y mem => whole y (List.mem_cons_of_mem x mem))
    obtain ⟨entries, record, _, source, target⟩ := first
    obtain ⟨s, hs⟩ := whole x List.mem_cons_self e.source ⟨entries, record, Or.inl ⟨e.kind, source⟩⟩
    obtain ⟨t, ht⟩ := whole x List.mem_cons_self e.target ⟨entries, record, Or.inr target⟩
    exact ⟨⟨e.kind, s, t⟩ :: m, by rw [List.map_cons, Entry.texts, ← hs, ← ht]⟩

theorem exists_tells {v : Value} {es : List (Entry Text)} (lists : Lists v es)
    (sendable : ∀ t, ¬ Unsendable v t) : ∃ m : NameMapping, es = m.map Entry.texts := by
  obtain ⟨entries, record, _, list, stored, items, itemized, each⟩ := lists
  refine entries_sendable each fun x mem n named => Name.exists_texts fun t part => ?_
  by_contra half
  exact sendable t ⟨half, entries, record, list, stored, items, itemized, x, mem, n, named, part⟩

section Mappings

variable {v : Value} (plain : v.Throughout Value.Plain)

include plain

omit plain in
theorem mappingOf_of_textUnmade? {t : Text} (unmade : textUnmade? v = some t) :
    Format.mappingOf v = .error (.unsendable t) := by
  rw [Format.mappingOf, unmade]

theorem mappingOf_eq_ok_iff (m : NameMapping) : Format.mappingOf v = .ok m ↔ Tells v m := by
  have exact : Exact Value.Plain check Lists Wrong := exact_check (fun _ plain => plain)
  rw [Format.mappingOf]
  cases unmade : textUnmade? v with
  | some t =>
    have unsendable := unsendable_of_textUnmade? plain unmade
    exact iff_of_false (by simp) fun told => sendable_of_tells plain told t unsendable
  | none =>
    have sendable := textUnmade?_eq_none plain unmade
    constructor
    · intro h
      obtain ⟨es, accepted, made⟩ := Effect.bind_eq_ok h
      have lists := (Format.checked_eq_ok_iff exact plain es).mp accepted
      obtain ⟨m', rfl⟩ := exists_tells lists sendable
      rw [mapM_strings] at made
      cases made
      exact lists
    · intro told
      simp only [(Format.checked_eq_ok_iff exact plain _).mpr told]
      exact Effect.mapError_eq_ok.mpr (mapM_strings m)

theorem mappingOf_stops (found : ∃ t, Unsendable v t) :
    ∃ t, Unsendable v t ∧ Format.mappingOf v = .error (.unsendable t) := by
  obtain ⟨u, unsendable⟩ := found
  cases unmade : textUnmade? v with
  | none => exact absurd unsendable (textUnmade?_eq_none plain unmade u)
  | some t => exact ⟨t, unsendable_of_textUnmade? plain unmade, mappingOf_of_textUnmade? unmade⟩

theorem mappingOf_refuses (nothing : ∀ m, ¬ Tells v m) (sendable : ∀ t, ¬ Unsendable v t) :
    ∃ report, Format.mappingOf v = .error (.invalid report) ∧ report.Tidy ∧
      ∀ way c, report.At way c ↔ Wrong v way c := by
  have exact : Exact Value.Plain check Lists Wrong := exact_check (fun _ plain => plain)
  have unlisted : ∀ es, ¬ Lists v es := by
    intro es lists
    obtain ⟨m, rfl⟩ := exists_tells lists sendable
    exact nothing m lists
  obtain ⟨report, refused, tidy, complaints⟩ :=
    Format.checked_refuses_told exact plain tellable_wrong unlisted
  refine ⟨report, ?_, tidy, complaints⟩
  cases unmade : textUnmade? v with
  | none =>
    rw [Format.mappingOf, unmade]
    simp only [refused]
    rfl
  | some t =>
    exact absurd (unsendable_of_textUnmade? plain unmade) (sendable t)

end Mappings

/-! ### Requests -/

def textIn (m : Message) (field : String) : Option String :=
  match m.lookup field with
  | none => some ""
  | some (.text s) => some s
  | some _ => none

def Name.ofMessage? (m : Message) : Option (Name String) := do
  return ⟨← textIn m "database", ← textIn m "schema", ← textIn m "relation", ← textIn m "attribute"⟩

def Entry.ofItem? : Item → Option (Entry String)
  | .record [("source", .record (("type_", .symbol kind) :: source)), ("target", .record target)] => do
    return ⟨← Kind.all.find? (fun k => k.name = kind), ← Name.ofMessage? source, ← Name.ofMessage? target⟩
  | _ => none

/-- The mapping in the details of a request, where a field that is left out is empty. -/
def sent? (details : Message) : Option NameMapping :=
  match details.lookup "name_mapping_list" with
  | none => some []
  | some (.record [("name_map", .list items)]) => items.mapM Entry.ofItem?
  | some _ => none

theorem Name.ofMessage?_message (n : Name String) : Name.ofMessage? n.message = some n := by
  obtain ⟨database, schema, relation, column⟩ := n
  by_cases hd : database = "" <;> by_cases hs : schema = "" <;> by_cases hr : relation = "" <;>
    by_cases hc : column = "" <;>
    simp [Name.ofMessage?, Name.message, Message.textField, textIn, List.lookup_cons, hd, hs, hr, hc]

theorem Entry.ofItem?_message (e : Entry String) : Entry.ofItem? (.record e.message) = some e := by
  have kind : Kind.all.find? (fun k => k.name = e.kind.name) = some e.kind := by
    cases e.kind <;> decide
  simp [Entry.ofItem?, Entry.message, kind, Name.ofMessage?_message]

theorem mapM_message (m : NameMapping) :
    (m.map (fun e => Item.record e.message)).mapM Entry.ofItem? = some m := by
  induction m with
  | nil => rfl
  | cons e m ih => simp [Entry.ofItem?_message, ih]

theorem lookup_details (r : JobRequest) :
    r.details.lookup "name_mapping_list" =
      if r.mapping = [] then none else some (.record r.mapping.message) := by
  rw [JobRequest.details, JobRequest.environment]
  by_cases he : r.database = "" ∧ r.searchPath = [] <;> by_cases hm : r.mapping = [] <;>
    simp [List.lookup_cons, he, hm]

theorem sent?_details (r : JobRequest) : sent? r.details = some r.mapping := by
  rw [sent?, lookup_details]
  by_cases hm : r.mapping = []
  · rw [if_pos hm, hm]
  · rw [if_neg hm]
    simp only [message, List.isEmpty_iff, hm, if_false]
    exact mapM_message r.mapping

theorem plain_jsonValue {content : Bytes} {v : Value} (h : Format.jsonValue content = .ok v) :
    v.Throughout Value.Plain := by
  rw [Format.jsonValue] at h
  split at h
  · cases h
  · exact Json.plain_read (Effect.mapError_eq_ok.mp h)

/-- A document is accepted exactly when it tells of a mapping, and gives its entries in order. Otherwise
reading stops at a text that cannot be sent, if there is one, and if there is none, the report says exactly
what is wrong. When a job is requested with the mapping, be it refused or not, the request has a field for
it exactly when it is not empty, and the entries in it are those of the mapping. -/
theorem accepted_and_sent {content : Bytes} {v : Value} (read : Format.jsonValue content = .ok v) :
    (∀ m, Format.mapping.ofBytes content = .ok m ↔ Tells v m) ∧
      ((∃ t, Unsendable v t) →
        ∃ t, Unsendable v t ∧ Format.mapping.ofBytes content = .error (.unsendable t)) ∧
      ((∀ m, ¬ Tells v m) → (∀ t, ¬ Unsendable v t) →
        ∃ report, Format.mapping.ofBytes content = .error (.invalid report) ∧
          report.Tidy ∧ ∀ way c, report.At way c ↔ Wrong v way c) ∧
      ∀ m, Format.mapping.ofBytes content = .ok m → ∀ b : Batch, b.mapping = some m →
        ∀ source target w, ∃ r answers,
          (Effect.final (b.create source target w)).events = w.events ++ .requested (.create r) :: answers ∧
          (∀ job, w.service.created = .ok job → answers = [.answered (Message.textField "name" job)] ∧
            ∃ w', b.create source target w = .ok job w') ∧
          ((∃ item, r.details.lookup "name_mapping_list" = some item) ↔ m ≠ []) ∧
          sent? r.details = some m := by
  have plain := plain_jsonValue read
  have value : Format.mapping.ofBytes content = Format.mappingOf v :=
    Format.ofBytes_eq (Format.mapping_value.mpr read)
  rw [value]
  refine ⟨mappingOf_eq_ok_iff plain, mappingOf_stops plain, mappingOf_refuses plain, ?_⟩
  intro m _ b given source target w
  have mapping : (b.request w.now source target).mapping = m := by rw [Batch.request, given, Option.getD_some]
  obtain ⟨answers, events, answered⟩ := b.create_events source target w
  refine ⟨b.request w.now source target, answers, events, answered, ?_, ?_⟩
  · rw [lookup_details, mapping]
    by_cases hm : m = [] <;> simp [hm]
  · rw [sent?_details, mapping]

def twoEntries : Bytes :=
  Format.ofLines ["\x7b\"name_map\": [\x7b\"source\":", "\x7b\"schema\": \"a\", \"type\": \"SCHEMA\"\x7d,",
    "\"target\": \x7b\"schema\": \"b\"\x7d\x7d,", "\x7b\"target\": \x7b\"database\": \"\"\x7d,",
    "\"source\": \x7b\"type\": \"FUNCTION\"\x7d\x7d]\x7d"]

def twoEntriesTold : NameMapping :=
  [⟨.schema, ⟨"", "a", "", ""⟩, ⟨"", "b", "", ""⟩⟩, ⟨.function, ⟨"", "", "", ""⟩, ⟨"", "", "", ""⟩⟩]

def flawed : Bytes :=
  Format.ofLines ["\x7b\"name_map\": [\x7b\"source\":", "\x7b\"type\": \"X\", \"schema\": 1\x7d\x7d, 2],",
    "\"size\": 3\x7d"]

def halved : Bytes :=
  Format.ofLines ["\x7b\"name_map\": [\x7b\"source\":", "\x7b\"type\": \"SCHEMA\", \"schema\": \"\\ud800\"\x7d,",
    "\"target\": \x7b\x7d\x7d, \x7b\x7d]\x7d"]

theorem accepted_and_sent_twoEntries :
    (∃ v, Format.jsonValue twoEntries = .ok v ∧ Tells v twoEntriesTold ∧
      ∀ (b : Batch) (w : World), ∃ r answers,
        (Effect.final (Batch.create { b with mapping := some twoEntriesTold } "in" "out" w)).events =
          w.events ++ .requested (.create r) :: answers ∧
          sent? r.details = some twoEntriesTold) ∧
    ∃ v report, Format.jsonValue flawed = .ok v ∧ (∀ m, ¬ Tells v m) ∧
      Format.mapping.ofBytes flawed = .error (.invalid report) ∧ ∀ way c, report.At way c ↔ Wrong v way c := by
  have told : (Format.mapping.ofBytes twoEntries).toOption = some twoEntriesTold := by decide +kernel
  have refused : Format.mapping.refuses flawed = true := by decide +kernel
  constructor
  · obtain ⟨accepted, v, value⟩ := Format.value_of_ofBytes told
    have read := Format.mapping_value.mp value
    obtain ⟨given, _, _, request⟩ := accepted_and_sent read
    refine ⟨v, read, (given _).mp accepted, fun b w => ?_⟩
    obtain ⟨r, answers, events, _, _, sent⟩ :=
      request _ accepted { b with mapping := some twoEntriesTold } rfl "in" "out" w
    exact ⟨r, answers, events, sent⟩
  · obtain ⟨v, report, value, failed⟩ := Format.invalid_of_refuses refused
    have read := Format.mapping_value.mp value
    obtain ⟨given, stops, complaints, _⟩ := accepted_and_sent read
    have nothing (m : NameMapping) : ¬ Tells v m := fun told => nomatch failed.symm.trans ((given m).mpr told)
    have sendable (t : Text) : ¬ Unsendable v t := by
      intro unsendable
      obtain ⟨u, _, stopped⟩ := stops ⟨t, unsendable⟩
      cases failed.symm.trans stopped
    obtain ⟨report, failed, _, exact⟩ := complaints nothing sendable
    exact ⟨v, report, read, nothing, failed, exact⟩

/-- Something is wrong with a document, and yet there is no report of it. -/
theorem halved_not_reported :
    ∃ v, Format.jsonValue halved = .ok v ∧ (∀ es, ¬ Lists v es) ∧
      Format.mapping.ofBytes halved = .error (.unsendable (.ofList [.half 0])) := by
  have known : (Format.jsonValue halved).toOption.map
      (fun v => ((check v).toOption.isNone, textUnmade? v)) = some (true, some (.ofList [.half 0])) := by
    decide +kernel
  obtain ⟨v, read, facts⟩ := Effect.ok_of_toOption_map known
  obtain ⟨refused, unmade⟩ := Prod.mk.inj facts
  have exact : Exact Value.Plain check Lists Wrong := exact_check fun _ plain => plain
  refine ⟨v, read, fun es lists => ?_, ?_⟩
  · rw [(exact.accepts (plain_jsonValue read) es).mpr lists] at refused
    cases refused
  · rw [Format.ofBytes_eq (Format.mapping_value.mpr read)]
    exact mappingOf_of_textUnmade? unmade

end SqlMigration.NameMapping
