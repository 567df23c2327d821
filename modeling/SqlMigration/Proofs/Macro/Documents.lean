import SqlMigration.Proofs.Job.Formats
import SqlMigration.Proofs.Tables
import SqlMigration.Proofs.Yaml.Keys

/-!
# Macros are accepted exactly

A macros document tells of macros when it maps path patterns to mappings of
texts to texts. Such a document is accepted, and gives its tables entry by entry
in the order of the document. For any other document the report has a complaint
for each pattern and within it for each entry whose key or value is wrong, and
no more.
-/

set_option autoImplicit false

namespace SqlMigration.Macros

open Schema

/-! ### Free mappings -/

/-- What may be wrong with a free mapping: it is none, or the key or the value of an entry is null or has a
flaw. -/
inductive PairsFlaw (key value : Flaw) (v : Value) : List Scalar → Complaint → Prop
  | notMapping (none : v.entries? = none) : PairsFlaw key value v [] .notMapping
  | key {entries : List (Scalar × Value)} {k : Scalar} {x : Value} {way : List Scalar} {c : Complaint}
      (inside : v.entries? = some entries) (mem : (k, x) ∈ entries) (wrong : NullOr key (.scalar k) way c) :
      PairsFlaw key value v (k :: .text "key" :: way) c
  | value {entries : List (Scalar × Value)} {k : Scalar} {x : Value} {way : List Scalar} {c : Complaint}
      (inside : v.entries? = some entries) (mem : (k, x) ∈ entries) (wrong : NullOr value x way c) :
      PairsFlaw key value v (k :: .text "value" :: way) c

def EachGives {α β : Type} (key : Value → α → Prop) (value : Value → β → Prop) :
    List (Scalar × Value) → Table α β → Prop :=
  List.Forall₂ (fun e p => key (.scalar e.1) p.1 ∧ value e.2 p.2)

def PairsGive {α β : Type} (key : Value → α → Prop) (value : Value → β → Prop) (v : Value) (t : Table α β) :
    Prop :=
  ∃ entries, v.entries? = some entries ∧ EachGives key value entries t

theorem filterMap_of_forall₂ {α β : Type} {f : α → Option β} {as : List α} {bs : List β}
    (h : List.Forall₂ (fun a b => f a = some b) as bs) : as.filterMap f = bs := by
  induction h with
  | nil => rfl
  | cons first _ ih => rw [List.filterMap_cons_some first, ih]

theorem exists_forall₂ {α β : Type} {r : α → β → Prop} {as : List α} :
    (∃ bs, List.Forall₂ r as bs) ↔ ∀ a ∈ as, ∃ b, r a b := by
  induction as with
  | nil => simp
  | cons a as ih =>
    rw [List.forall_mem_cons, ← ih]
    constructor
    · rintro ⟨_, first | ⟨first, later⟩⟩
      exact ⟨⟨_, first⟩, _, later⟩
    · rintro ⟨⟨b, first⟩, bs, later⟩
      exact ⟨b :: bs, .cons first later⟩

theorem nodup_twoPasses {α β : Type} {entries : List (α × β)} (distinct : (entries.map Prod.fst).Nodup)
    (first second : α × β → Bool) :
    ((entries.filter first ++ entries.filter (fun p => !first p && second p)).map Prod.fst).Nodup := by
  rw [List.map_append, List.nodup_append']
  refine ⟨distinct.sublist (List.filter_sublist.map _), distinct.sublist (List.filter_sublist.map _), ?_⟩
  intro k inFirst inSecond
  obtain ⟨p, hp, rfl⟩ := List.mem_map.mp inFirst
  obtain ⟨q, hq, same⟩ := List.mem_map.mp inSecond
  obtain ⟨memP, isFirst⟩ := List.mem_filter.mp hp
  obtain ⟨memQ, isSecond⟩ := List.mem_filter.mp hq
  cases List.inj_on_of_nodup_map distinct memQ memP same
  simp [isFirst] at isSecond

theorem mem_twoPasses {α : Type} {as : List α} {first second : α → Bool} {a : α} :
    a ∈ as.filter first ++ as.filter (fun b => !first b && second b) ↔
      a ∈ as ∧ (first a = true ∨ second a = true) := by
  rw [List.mem_append, List.mem_filter, List.mem_filter]
  cases first a <;> simp

section Pairs

variable {α β : Type} {key : Check α} {value : Check β}

theorem mem_pairFaults {p : Scalar × Value} {k : Scalar} {r : Report} :
    (k, r) ∈ pairFaults key value p ↔
      (k = .text "key" ∧ present key (.scalar p.1) = .error r) ∨
        (k = .text "value" ∧ present value p.2 = .error r) := by
  rw [pairFaults, List.mem_append]
  cases present key (.scalar p.1) <;> cases present value p.2 <;> simp [faultOf, eq_comm]

theorem pairFaults_eq_nil {p : Scalar × Value} :
    pairFaults key value p = [] ↔
      ∃ a b, present key (.scalar p.1) = .ok a ∧ present value p.2 = .ok b := by
  rw [pairFaults]
  cases present key (.scalar p.1) <;> cases present value p.2 <;> simp [faultOf]

def Pass (key : Check α) (value : Check β) : List (Scalar × Value) → Table α β → Prop :=
  EachGives (fun v a => present key v = .ok a) (fun v b => present value v = .ok b)

theorem exists_pass_iff {entries : List (Scalar × Value)} :
    (∃ ps, Pass key value entries ps) ↔ ∀ p ∈ entries, pairFaults key value p = [] := by
  simp only [Pass, EachGives, exists_forall₂, pairFaults_eq_nil, Prod.exists]

def pairsReport (key : Check α) (value : Check β) (bad : List (Scalar × Value)) : Report :=
  .pairs (bad.map (fun p => (p.1, .fields (pairFaults key value p))))

theorem pairFaults_ne_nil (p : Scalar × Value) :
    pairFaults key value p ≠ [] ↔ (!(faultOf "key" (present key (.scalar p.1))).isEmpty) = true ∨
      (!(faultOf "value" (present value p.2)).isEmpty) = true := by
  rw [pairFaults, Ne, List.append_eq_nil_iff, not_and_or]
  simp only [Bool.not_eq_true', List.isEmpty_eq_false_iff, ne_eq]

variable {v : Value} {entries : List (Scalar × Value)} {P : Value → Prop} {keyGives : Value → α → Prop}
  {valueGives : Value → β → Prop} {keyFlaw valueFlaw : Flaw}

section Told

variable (exactKey : Exact P key keyGives keyFlaw) (exactValue : Exact P value valueGives valueFlaw)
  (proper : v.Throughout P) (inside : v.entries? = some entries) {bad : List (Scalar × Value)}
  (faulty : ∀ p, p ∈ bad ↔ p ∈ entries ∧ pairFaults key value p ≠ [])

include exactKey exactValue proper inside faulty

theorem at_pairs (way : List Scalar) (c : Complaint) :
    (pairsReport key value bad).At way c ↔ PairsFlaw keyFlaw valueFlaw v way c := by
  constructor
  · intro said
    obtain ⟨k, r, rest, rfl, mem, said⟩ := Report.at_pairs_iff.mp said
    obtain ⟨p, hp, eq⟩ := List.mem_map.mp mem
    cases eq
    obtain ⟨memP, _⟩ := (faulty p).mp hp
    obtain ⟨side, r', rest', rfl, fault, said'⟩ := Report.at_fields_iff.mp said
    rcases mem_pairFaults.mp fault with ⟨rfl, failed⟩ | ⟨rfl, failed⟩
    · have answer := (present_answers exactKey (proper.key inside memP)).of_error failed
      exact .key inside memP ((answer.2 rest' c).mp said')
    · have answer := (present_answers exactValue (proper.entry inside memP)).of_error failed
      exact .value inside memP ((answer.2 rest' c).mp said')
  · have found {k side : Scalar} {x : Value} {r : Report} {rest : List Scalar} (mem : (k, x) ∈ entries)
        (fault : (side, r) ∈ pairFaults key value (k, x)) (said : r.At rest c) :
        (pairsReport key value bad).At (k :: side :: rest) c :=
      .pair (List.mem_map_of_mem ((faulty _).mpr ⟨mem, List.ne_nil_of_mem fault⟩)) (.field fault said)
    rintro (none | ⟨inside', mem, wrong⟩ | ⟨inside', mem, wrong⟩)
    · cases inside.symm.trans none
    · cases inside.symm.trans inside'
      obtain ⟨r, failed, said⟩ := (present_answers exactKey (proper.key inside mem)).told wrong
      exact found mem (mem_pairFaults.mpr (Or.inl ⟨rfl, failed⟩)) said
    · cases inside.symm.trans inside'
      obtain ⟨r, failed, said⟩ := (present_answers exactValue (proper.entry inside mem)).told wrong
      exact found mem (mem_pairFaults.mpr (Or.inr ⟨rfl, failed⟩)) said

theorem tidy_pairs (inhabited : bad ≠ []) (distinct : (bad.map Prod.fst).Nodup) :
    (pairsReport key value bad).Tidy := by
  have sides (p : Scalar × Value) : ((pairFaults key value p).map Prod.fst).Nodup := by
    have other : ("key" : Text) ≠ ("value" : Text) := by decide
    rw [pairFaults]
    cases present key (.scalar p.1) <;> cases present value p.2 <;> simp [faultOf, other]
  refine .pairs (mt List.map_eq_nil_iff.mp inhabited) ?_ ?_
  · rw [List.map_map]
    exact distinct
  · intro e mem
    obtain ⟨p, hp, rfl⟩ := List.mem_map.mp mem
    obtain ⟨memP, some⟩ := (faulty p).mp hp
    refine .fields some (sides p) ?_
    rintro ⟨k, r⟩ fault
    rcases mem_pairFaults.mp fault with ⟨_, failed⟩ | ⟨_, failed⟩
    · exact ((present_answers exactKey (proper.key inside memP)).of_error failed).1
    · exact ((present_answers exactValue (proper.entry inside memP)).of_error failed).1

end Told

/-- Where a key can be told from what it gives, the table has the keys of the mapping. -/
theorem keys_given {spell : α → Scalar} (spelled : ∀ k a, keyGives (.scalar k) a → k = spell a)
    {t : Table α β} (each : EachGives keyGives valueGives entries t) :
    (Table.keys t).map spell = entries.map Prod.fst := by
  induction each with
  | nil => rfl
  | @cons e p entries t first _ ih =>
    rw [List.map_cons, spelled _ _ first.1, ← ih]
    rfl

variable [DecidableEq α]

theorem pairsOf_cases (key : Check α) (value : Check β) (inside : v.entries? = some entries)
    (distinct : (entries.map Prod.fst).Nodup) :
    (∃ ps, Pass key value entries ps ∧ pairsOf key value v = .ok (Table.ofPairs ps)) ∨
      ∃ bad, bad ≠ [] ∧ (bad.map Prod.fst).Nodup ∧
        (∀ p, p ∈ bad ↔ p ∈ entries ∧ pairFaults key value p ≠ []) ∧
        pairsOf key value v = .error (pairsReport key value bad) := by
  unfold pairsOf
  rw [inside]
  dsimp only
  split
  · next empty =>
    left
    have fine : ∀ e ∈ entries, pairFaults key value e = [] := by
      intro e mem
      by_contra some
      refine List.not_mem_nil (a := e) ?_
      rw [← List.isEmpty_iff.mp empty]
      exact mem_twoPasses.mpr ⟨mem, (pairFaults_ne_nil e).mp some⟩
    obtain ⟨ps, each⟩ := exists_pass_iff.mpr fine
    refine ⟨ps, each, ?_⟩
    rw [filterMap_of_forall₂ (List.Forall₂.imp ?_ each)]
    intro e p both
    rw [both.1, both.2]
  · next inhabited =>
    have some := mt List.isEmpty_iff.mpr inhabited
    refine Or.inr ⟨_, some, nodup_twoPasses distinct _ _, fun p => ?_, rfl⟩
    rw [pairFaults_ne_nil]
    exact mem_twoPasses

theorem exact_pairsOf (distinct : ∀ v, P v → v.Distinct) (exactKey : Exact P key keyGives keyFlaw)
    (exactValue : Exact P value valueGives valueFlaw) {spell : α → Scalar}
    (spelled : ∀ k a, keyGives (.scalar k) a → k = spell a) :
    Exact P (pairsOf key value) (PairsGive keyGives valueGives) (PairsFlaw keyFlaw valueFlaw) where
  accepts {v} proper t := by
    cases inside : v.entries? with
    | none => simp [pairsOf, PairsGive, inside]
    | some entries =>
      have keys := distinct v proper.here entries inside
      have accepted {t : Table α β} : Pass key value entries t ↔ EachGives keyGives valueGives entries t := by
        simp only [Pass, EachGives, List.forall₂_iff_get,
          present_accepts exactKey (proper.key inside (List.get_mem _ _)),
          present_accepts exactValue (proper.entry inside (List.get_mem _ _))]
      simp only [PairsGive, inside, Option.some.injEq, exists_eq_left']
      rcases pairsOf_cases key value inside keys with ⟨ps, each, ok⟩ | ⟨bad, inhabited, _, faulty, failed⟩
      · have distinctKeys : (Table.keys ps).Nodup := by
          rw [← keys_given spelled (accepted.mp each)] at keys
          exact keys.of_map
        rw [ok, Table.ofPairs_of_nodup distinctKeys, Except.ok.injEq, ← accepted]
        constructor
        · rintro rfl
          exact each
        · refine List.right_unique_forall₂' (fun e p q first second => ?_) each
          exact Prod.ext (Except.ok.inj (first.1.symm.trans second.1))
            (Except.ok.inj (first.2.symm.trans second.2))
      · rw [failed, ← accepted]
        refine ⟨fun same => (nomatch same), fun each => ?_⟩
        obtain ⟨p, mem⟩ := List.exists_mem_of_ne_nil bad inhabited
        obtain ⟨there, some⟩ := (faulty p).mp mem
        exact absurd (exists_pass_iff.mp ⟨t, each⟩ p there) some
  answers {v} proper := by
    cases inside : v.entries? with
    | none =>
      rw [pairsOf, inside]
      refine Answers.one fun way c => ⟨?_, ?_⟩
      · rintro (_ | ⟨inside', _, _⟩ | ⟨inside', _, _⟩)
        · exact ⟨rfl, rfl⟩
        · cases inside.symm.trans inside'
        · cases inside.symm.trans inside'
      · rintro ⟨rfl, rfl⟩
        exact .notMapping inside
    | some entries =>
      rcases pairsOf_cases key value inside (distinct v proper.here entries inside) with
        ⟨ps, each, ok⟩ | ⟨bad, inhabited, different, faulty, failed⟩
      · rw [ok]
        intro way c wrong
        have faulty (p : Scalar × Value) : p ∈ [] ↔ p ∈ entries ∧ pairFaults key value p ≠ [] := by
          simpa using exists_pass_iff.mp ⟨ps, each⟩ p
        have said := (at_pairs exactKey exactValue proper inside faulty way c).mpr wrong
        obtain ⟨_, _, _, _, mem, _⟩ := Report.at_pairs_iff.mp said
        exact List.not_mem_nil mem
      · rw [failed]
        exact ⟨tidy_pairs exactKey exactValue proper inside faulty inhabited different,
          at_pairs exactKey exactValue proper inside faulty⟩
  nonnull := by
    rintro v t ⟨entries, inside, _⟩
    exact isNull_of_entries inside

end Pairs

/-! ### Documents -/

/-- A value tells of macros, pattern by pattern and entry by entry. -/
def Tells : Value → Macros → Prop :=
  RecordGives ["macros"] fun entries m =>
    Stored entries "macros" (PairsGive IsString (PairsGive IsString IsString) · m)

def documentRules : List Rule :=
  [.required "macros" (PairsFlaw StringFlaw (PairsFlaw StringFlaw StringFlaw))]

def Wrong : Flaw := RecordFlaw documentRules

theorem exact_check {P : Value → Prop} (proper : ∀ v, P v → v.Plain) : Exact P check Tells Wrong := by
  have distinct (v : Value) (h : P v) : v.Distinct := (proper v h).1
  have string := exact_string (fun v h => (proper v h).2)
  have spelled (k : Scalar) (s : Text) (h : IsString (.scalar k) s) : k = .text s := Option.some.inj h
  have tables := exact_pairsOf distinct string (exact_pairsOf distinct string string spelled) spelled
  refine exact_record documentRules distinct (by decide) (fun v none => by rw [check, none])
    fun v entries inside fields => ?_
  rw [check, inside]
  refine ⟨⟨_, .cons (required_answers tables (fields _)).tells .nil, ?_⟩, fun m => ?_⟩
  · change Assembled (_ ++ unknownFields ["macros"] entries) _
    dsimp only [Rule.required]
    cases required (pairsOf text (pairsOf text text)) entries "macros" <;>
      cases unknownFields ["macros"] entries <;> simp [Assembled, faultOf]
  · change _ ↔ unknownFields ["macros"] entries = [] ∧ _
    rw [← required_accepts tables (fields _)]
    dsimp only
    cases required (pairsOf text (pairsOf text text)) entries "macros" <;>
      cases unknownFields ["macros"] entries <;> simp

theorem tellable_pairs {key value : Flaw} (hk : Tellable key) (hv : Tellable value) :
    Tellable (PairsFlaw key value) := by
  rintro v way c (_ | ⟨_, _, wrong⟩ | ⟨_, _, wrong⟩)
  · rfl
  · exact tellable_nullOr hk _ _ c wrong
  · exact tellable_nullOr hv _ _ c wrong

/-- A document without binary scalars is accepted exactly when it tells of macros, and gives its tables in
order. Otherwise the report says exactly what is wrong. -/
theorem accepted_in_order {content : Bytes} {v : Value} (read : Yaml.read content = .ok v)
    (plain : v.Throughout Value.NotBinary) :
    (∀ m, Format.macros.ofBytes content = .ok m ↔ Tells v m) ∧
      ((∀ m, ¬ Tells v m) → ∃ report, Format.macros.ofBytes content = .error (.invalid report) ∧
        report.Tidy ∧ ∀ way c, report.At way c ↔ Wrong v way c) := by
  have exact : Exact Value.Plain check Tells Wrong := exact_check (fun _ plain => plain)
  have proper : v.Throughout Value.Plain := fun x part => ⟨Yaml.distinct_read read x part, plain x part⟩
  have table := tellable_pairs tellable_string tellable_string
  have tellable : Tellable Wrong :=
    tellable_record (by simp [documentRules, Rule.required, tellable_pairs tellable_string table])
  rw [Format.ofBytes_eq (Format.macros_value.mpr read)]
  exact ⟨Format.checked_eq_ok_iff exact proper, Format.checked_refuses_told exact proper tellable⟩

def twoPatterns : Bytes :=
  Format.ofLines ["macros:", "  '*.sql': \x7bb: '2', a: '1'\x7d", "  '*': \x7b\x7d"]

def flawed : Bytes :=
  Format.ofLines ["macros:", "  '*.sql': 1", "  2: \x7b\x7d", "  '*': \x7b3: x, y: 4, a: b\x7d"]

theorem accepted_in_order_twoPatterns :
    (∃ v, Yaml.read twoPatterns = .ok v ∧ v.Throughout Value.NotBinary ∧
      Tells v [("*.sql", [("b", "2"), ("a", "1")]), ("*", [])]) ∧
    ∃ v report, Yaml.read flawed = .ok v ∧ v.Throughout Value.NotBinary ∧ (∀ m, ¬ Tells v m) ∧
      Format.macros.ofBytes flawed = .error (.invalid report) ∧ ∀ way c, report.At way c ↔ Wrong v way c := by
  have told : (Format.macros.ofBytes twoPatterns).toOption =
      some ([("*.sql", [("b", "2"), ("a", "1")]), ("*", [])] : Macros) := by decide +kernel
  have plain : (Yaml.read twoPatterns).toOption.map Value.isPlainPlace = some true := by decide +kernel
  have refused : Format.macros.refuses flawed = true := by decide +kernel
  have plain' : (Yaml.read flawed).toOption.map Value.isPlainPlace = some true := by decide +kernel
  constructor
  · obtain ⟨accepted, v, value⟩ := Format.value_of_ofBytes told
    have read := Format.macros_value.mp value
    rw [read] at plain
    have notBinary := Value.notBinary_of_isPlainPlace (Option.some.inj plain)
    exact ⟨v, read, notBinary, ((accepted_in_order read notBinary).1 _).mp accepted⟩
  · obtain ⟨v, report, value, failed⟩ := Format.invalid_of_refuses refused
    have read := Format.macros_value.mp value
    rw [read] at plain'
    have notBinary := Value.notBinary_of_isPlainPlace (Option.some.inj plain')
    obtain ⟨given, complaints⟩ := accepted_in_order read notBinary
    have nothing (m : Macros) : ¬ Tells v m := fun told => nomatch failed.symm.trans ((given m).mpr told)
    obtain ⟨report, failed, _, exact⟩ := complaints nothing
    exact ⟨v, report, read, notBinary, nothing, failed, exact⟩

end SqlMigration.Macros
