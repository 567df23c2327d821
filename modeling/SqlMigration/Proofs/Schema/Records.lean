import SqlMigration.Proofs.Schema.Checks
import SqlMigration.Proofs.Text.Codes
import SqlMigration.Proofs.Text.Utf8

/-!
# Records, lists and texts

A record is wrong where one of its fields is, and for every key that no field
has. A list is wrong where one of its members is, by the member's position. The
report of a record or a list is put together from the reports of its parts.
-/

set_option autoImplicit false

namespace SqlMigration.Schema

/-! ### Records -/

def Only (names : List String) (entries : List (Scalar × Value)) : Prop :=
  ∀ e ∈ entries, ∃ name ∈ names, e.1 = .text name

/-- What may be wrong with a record: it is none, a field is wrong, or a key is unknown. -/
inductive RecordFlaw (rules : List Rule) (v : Value) : List Scalar → Complaint → Prop
  | notRecord (none : v.entries? = none) : RecordFlaw rules v [.text "_schema"] .notRecord
  | field {entries : List (Scalar × Value)} {rule : Rule} {way : List Scalar} {c : Complaint}
      (inside : v.entries? = some entries) (mem : rule ∈ rules) (broken : rule.Broken entries way c) :
      RecordFlaw rules v (.text rule.name :: way) c
  | unknown {entries : List (Scalar × Value)} {k : Scalar} {x : Value}
      (inside : v.entries? = some entries) (mem : (k, x) ∈ entries)
      (unknown : ∀ rule ∈ rules, k ≠ .text rule.name) : RecordFlaw rules v [k] .unknownField

theorem isKnown_iff (names : List String) (k : Scalar) :
    isKnown names k = true ↔ ∃ name ∈ names, k = .text name := by
  cases k <;> simp [isKnown, eq_comm]

theorem unknownFields_eq_nil (names : List String) (entries : List (Scalar × Value)) :
    unknownFields names entries = [] ↔ Only names entries := by
  simp only [unknownFields, List.map_eq_nil_iff, List.filter_eq_nil_iff, Bool.not_eq_true',
    Bool.not_eq_false, isKnown_iff, Only]

theorem mem_unknownFields {names : List String} {entries : List (Scalar × Value)} {k : Scalar} {r : Report} :
    (k, r) ∈ unknownFields names entries ↔
      r = .one .unknownField ∧ k ∈ entries.map Prod.fst ∧ ∀ name ∈ names, k ≠ .text name := by
  have unknown (e : Scalar × Value) :
      (!isKnown names e.1) = true ↔ ∀ name ∈ names, e.1 ≠ .text name := by
    rw [Bool.not_eq_true', ← Bool.not_eq_true, isKnown_iff]
    simp
  simp only [unknownFields, List.mem_map, List.mem_filter, unknown, Prod.mk.injEq]
  constructor
  · rintro ⟨e, ⟨mem, new⟩, rfl, rfl⟩
    exact ⟨rfl, ⟨e, mem, rfl⟩, new⟩
  · rintro ⟨rfl, ⟨e, mem, rfl⟩, new⟩
    exact ⟨e, ⟨mem, new⟩, rfl, rfl⟩

/-- The faults that are noted for a field: none, or a report of what is wrong with it. -/
def Rule.Tells (entries : List (Scalar × Value)) (rule : Rule) (faults : List (Scalar × Report)) : Prop :=
  ∃ outcome : Except Report Unit, faults = faultOf rule.name outcome ∧ Answers (rule.Broken entries) outcome

theorem Answers.tells {α : Type} {entries : List (Scalar × Value)} {rule : Rule} {outcome : Except Report α}
    (h : Answers (rule.Broken entries) outcome) : rule.Tells entries (faultOf rule.name outcome) :=
  ⟨outcome.map (fun _ => ()), by cases outcome <;> rfl, h.map _⟩

/-- A record is accepted when there are no faults, and refused with all of them otherwise. -/
def Assembled {α : Type} (faults : List (Scalar × Report)) : Except Report α → Prop
  | .ok _ => faults = []
  | .error r => faults ≠ [] ∧ r = .fields faults

section Record

variable {entries : List (Scalar × Value)} {rules : List Rule} {faults : List (List (Scalar × Report))}

theorem told_iff (told : List.Forall₂ (Rule.Tells entries) rules faults) (k : Scalar) (way : List Scalar)
    (c : Complaint) :
    (∃ r, (k, r) ∈ faults.flatten ∧ r.At way c) ↔
      ∃ rule ∈ rules, k = .text rule.name ∧ rule.Broken entries way c := by
  induction told with
  | nil => simp
  | @cons rule fs rules faults first _ ih =>
    have here : (∃ r, (k, r) ∈ fs ∧ r.At way c) ↔ k = .text rule.name ∧ rule.Broken entries way c := by
      obtain ⟨outcome, rfl, answer⟩ := first
      cases outcome with
      | ok _ =>
        have none : ¬ rule.Broken entries way c := answer way c
        simp [faultOf, none]
      | error r => simp [faultOf, ← answer.2 way c, and_assoc]
    simp only [List.flatten_cons, List.mem_append, or_and_right, exists_or, here, ih, List.mem_cons,
      exists_eq_left]

theorem told_tidy (told : List.Forall₂ (Rule.Tells entries) rules faults) :
    (faults.flatten.map Prod.fst).Sublist (rules.map (fun rule => .text rule.name)) ∧
      ∀ e ∈ faults.flatten, e.2.Tidy := by
  induction told with
  | nil => simp
  | @cons rule fs rules faults first _ ih =>
    obtain ⟨sub, tidy⟩ := ih
    obtain ⟨outcome, rfl, answer⟩ := first
    cases outcome with
    | ok _ => exact ⟨sub.cons _, tidy⟩
    | error r => exact ⟨sub.cons_cons _, List.forall_mem_cons.mpr ⟨answer.1, tidy⟩⟩

theorem answers_record {α : Type} {v : Value} {outcome : Except Report α} (inside : v.entries? = some entries)
    (distinct : (entries.map Prod.fst).Nodup) (names : (rules.map (·.name)).Nodup)
    (told : List.Forall₂ (Rule.Tells entries) rules faults)
    (assembled : Assembled (faults.flatten ++ unknownFields (rules.map (·.name)) entries) outcome) :
    Answers (RecordFlaw rules v) outcome := by
  have exact (way : List Scalar) (c : Complaint) :
      (Report.fields (faults.flatten ++ unknownFields (rules.map (·.name)) entries)).At way c ↔
        RecordFlaw rules v way c := by
    rw [Report.at_fields_iff]
    constructor
    · rintro ⟨k, r, rest, rfl, mem, inner⟩
      rcases List.mem_append.mp mem with declared | unknown
      · obtain ⟨rule, hr, rfl, broken⟩ := (told_iff told k rest c).mp ⟨r, declared, inner⟩
        exact .field inside hr broken
      · obtain ⟨rfl, there, new⟩ := mem_unknownFields.mp unknown
        obtain ⟨rfl, rfl⟩ := Report.at_one_iff.mp inner
        obtain ⟨e, he, rfl⟩ := List.mem_map.mp there
        exact .unknown inside he (fun rule hr => new _ (List.mem_map_of_mem hr))
    · rintro (none | ⟨inside', hr, broken⟩ | ⟨inside', mem, unknown⟩)
      · cases inside.symm.trans none
      · cases inside.symm.trans inside'
        obtain ⟨r, mem, inner⟩ := (told_iff told _ _ c).mpr ⟨_, hr, rfl, broken⟩
        exact ⟨_, r, _, rfl, List.mem_append_left _ mem, inner⟩
      · cases inside.symm.trans inside'
        refine ⟨_, _, _, rfl, List.mem_append_right _ (mem_unknownFields.mpr ⟨rfl, ?_, ?_⟩), .one _⟩
        · exact List.mem_map_of_mem (f := Prod.fst) mem
        · intro name hn
          obtain ⟨rule, hr, rfl⟩ := List.mem_map.mp hn
          exact unknown rule hr
  cases outcome with
  | ok a =>
    intro way c wrong
    have empty : faults.flatten ++ unknownFields (rules.map (·.name)) entries = [] := assembled
    obtain ⟨k, r, rest, _, mem, _⟩ := Report.at_fields_iff.mp ((exact way c).mpr wrong)
    rw [empty] at mem
    exact List.not_mem_nil mem
  | error r =>
    obtain ⟨inhabited, rfl⟩ := assembled
    refine ⟨.fields inhabited ?_ ?_, exact⟩
    · obtain ⟨sub, _⟩ := told_tidy told
      have declared : (rules.map (fun rule => Scalar.text rule.name)).Nodup := by
        have texts := names.map (f := fun name : String => Scalar.text name)
          (fun _ _ same => Text.ofString_inj.mp (Scalar.text.inj same))
        rwa [List.map_map] at texts
      rw [List.map_append, List.nodup_append']
      refine ⟨declared.sublist sub, ?_, ?_⟩
      · rw [unknownFields, List.map_map]
        exact distinct.sublist (List.filter_sublist.map _)
      · intro k first second
        obtain ⟨rule, hr, rfl⟩ := List.mem_map.mp (sub.subset first)
        obtain ⟨e, he, eq⟩ := List.mem_map.mp second
        exact (mem_unknownFields.mp he).2.2 _ (List.mem_map_of_mem hr) eq
    · intro e mem
      rcases List.mem_append.mp mem with declared | unknown
      · exact (told_tidy told).2 e declared
      · rw [(mem_unknownFields.mp unknown).1]
        exact .one _

theorem answers_notRecord {α : Type} {v : Value} (none : v.entries? = none) :
    Answers (RecordFlaw rules v) (.error .notRecord : Except Report α) := by
  refine ⟨Report.tidy_notRecord, fun way c => Report.at_notRecord_iff.trans ⟨?_, ?_⟩⟩
  · rintro ⟨rfl, rfl⟩
    exact .notRecord none
  · rintro (_ | ⟨inside, _, _⟩ | ⟨inside, _, _⟩)
    · exact ⟨rfl, rfl⟩
    · cases none.symm.trans inside
    · cases none.symm.trans inside

end Record

def RecordGives {α : Type} (names : List String) (gives : List (Scalar × Value) → α → Prop) (v : Value)
    (a : α) : Prop :=
  ∃ entries, v.entries? = some entries ∧ Only names entries ∧ gives entries a

/-- A check of records is exact when it notes the faults of every field and of unknown keys, and puts the
record together when there are none. -/
theorem exact_record {P : Value → Prop} {α : Type} {check : Check α} (rules : List Rule)
    {gives : List (Scalar × Value) → α → Prop} (distinct : ∀ v, P v → v.Distinct)
    (names : (rules.map (·.name)).Nodup)
    (refused : ∀ v, v.entries? = none → check v = .error .notRecord)
    (assembled : ∀ v entries, v.entries? = some entries →
      (∀ name x, Value.field? entries name = some x → x.Throughout P) →
      (∃ faults, List.Forall₂ (Rule.Tells entries) rules faults ∧
        Assembled (faults.flatten ++ unknownFields (rules.map (·.name)) entries) (check v)) ∧
      ∀ a, check v = .ok a ↔ unknownFields (rules.map (·.name)) entries = [] ∧ gives entries a) :
    Exact P check (RecordGives (rules.map (·.name)) gives) (RecordFlaw rules) where
  accepts {v} proper a := by
    cases inside : v.entries? with
    | none => simp [refused v inside, RecordGives, inside]
    | some entries =>
      rw [(assembled v entries inside fun _ _ => proper.field inside).2 a, unknownFields_eq_nil]
      simp [RecordGives, inside]
  answers {v} proper := by
    cases inside : v.entries? with
    | none =>
      rw [refused v inside]
      exact answers_notRecord inside
    | some entries =>
      obtain ⟨⟨faults, told, outcome⟩, _⟩ := assembled v entries inside fun _ _ => proper.field inside
      exact answers_record inside (distinct v proper.here entries inside) names told outcome
  nonnull := by
    rintro v a ⟨entries, inside, _⟩
    exact isNull_of_entries inside

/-! ### Lists -/

/-- What may be wrong with a list: it is none, or a member is null or has a flaw. -/
inductive ListFlaw (flaw : Flaw) (v : Value) : List Scalar → Complaint → Prop
  | notList (none : v.items? = none) : ListFlaw flaw v [] .notList
  | member {items : List Value} {i : Nat} {x : Value} {way : List Scalar} {c : Complaint}
      (inside : v.items? = some items) (there : items[i]? = some x) (wrong : NullOr flaw x way c) :
      ListFlaw flaw v (.int i :: way) c

def ListGives {α : Type} (gives : Value → α → Prop) (v : Value) (as : List α) : Prop :=
  ∃ items, v.items? = some items ∧ List.Forall₂ gives items as

section Lists

variable {P : Value → Prop} {α : Type} {check : Check α} {gives : Value → α → Prop} {flaw : Flaw}

theorem members_accepts (check : Check α) (i : Nat) (items : List Value) (as : List α) :
    members check i items = (as, []) ↔ List.Forall₂ (fun x a => present check x = .ok a) items as := by
  induction items generalizing i as with
  | nil => simp [members, eq_comm]
  | cons x items ih =>
    rw [members]
    cases h : members check (i + 1) items with
    | mk good bad =>
      have rest := ih (i + 1)
      rw [h] at rest
      cases hx : present check x with
      | error r => simp [List.forall₂_cons_left_iff, hx]
      | ok a =>
        simp only [List.forall₂_cons_left_iff, hx, Except.ok.injEq, ← rest, Prod.mk.injEq]
        constructor
        · rintro ⟨rfl, rfl⟩
          exact ⟨a, good, rfl, ⟨rfl, rfl⟩, rfl⟩
        · rintro ⟨b, rest, rfl, ⟨rfl, rfl⟩, rfl⟩
          exact ⟨rfl, rfl⟩

theorem mem_members {i : Nat} {items : List Value} {k : Scalar} {r : Report} :
    (k, r) ∈ (members check i items).2 ↔
      ∃ j x, items[j]? = some x ∧ k = .int (i + j : Nat) ∧ present check x = .error r := by
  induction items generalizing i with
  | nil => simp [members]
  | cons x items ih =>
    have split : (∃ j y, (x :: items)[j]? = some y ∧ k = .int (i + j : Nat) ∧ present check y = .error r) ↔
        (k = .int i ∧ present check x = .error r) ∨ (k, r) ∈ (members check (i + 1) items).2 := by
      rw [ih]
      constructor
      · rintro ⟨_ | j, y, there, key, bad⟩
        · cases Option.some.inj there
          exact Or.inl ⟨key, bad⟩
        · exact Or.inr ⟨j, y, there, by rw [key, Nat.add_right_comm, Nat.add_assoc], bad⟩
      · rintro (⟨key, bad⟩ | ⟨j, y, there, key, bad⟩)
        · exact ⟨0, x, rfl, key, bad⟩
        · exact ⟨j + 1, y, there, by rw [key, Nat.add_right_comm, Nat.add_assoc], bad⟩
    rw [split, members]
    cases present check x with
    | ok a => simp
    | error q => simp [eq_comm]

theorem nodup_members (check : Check α) (i : Nat) (items : List Value) :
    ((members check i items).2.map Prod.fst).Nodup := by
  induction items generalizing i with
  | nil => exact List.nodup_nil
  | cons x items ih =>
    rw [members]
    cases present check x with
    | ok a => exact ih (i + 1)
    | error r =>
      refine List.nodup_cons.mpr ⟨?_, ih (i + 1)⟩
      intro again
      obtain ⟨⟨k, q⟩, mem, rfl⟩ := List.mem_map.mp again
      obtain ⟨j, _, _, key, _⟩ := mem_members.mp mem
      have same := Scalar.int.inj key
      omega

theorem exact_listOf (h : Exact P check gives flaw) :
    Exact P (listOf check) (ListGives gives) (ListFlaw flaw) where
  accepts {v} proper as := by
    rw [listOf, ListGives]
    cases inside : v.items? with
    | none => simp
    | some items =>
      have each : List.Forall₂ gives items as ↔
          List.Forall₂ (fun x a => present check x = .ok a) items as := by
        simp only [List.forall₂_iff_get, present_accepts h (proper.item inside (List.get_mem _ _))]
      simp only [Option.some.injEq, exists_eq_left', each, ← members_accepts check 0]
      cases members check 0 items with
      | mk good bad => cases bad <;> simp
  answers {v} proper := by
    rw [listOf]
    cases inside : v.items? with
    | none =>
      refine Answers.one fun way c => ⟨?_, ?_⟩
      · rintro (_ | ⟨inside', _, _⟩)
        · exact ⟨rfl, rfl⟩
        · cases inside.symm.trans inside'
      · rintro ⟨rfl, rfl⟩
        exact .notList inside
    | some items =>
      have judged {x : Value} (mem : x ∈ items) : Answers (NullOr flaw x) (present check x) :=
        present_answers h (proper.item inside mem)
      have exact (way : List Scalar) (c : Complaint) :
          (Report.fields (members check 0 items).2).At way c ↔ ListFlaw flaw v way c := by
        rw [Report.at_fields_iff]
        constructor
        · rintro ⟨k, r, rest, rfl, mem, inner⟩
          obtain ⟨j, x, there, rfl, bad⟩ := mem_members.mp mem
          have answer := (judged (List.mem_of_getElem? there)).of_error bad
          rw [Nat.zero_add]
          exact .member inside there ((answer.2 rest c).mp inner)
        · rintro (none | ⟨inside', there, wrong⟩)
          · cases inside.symm.trans none
          · cases inside.symm.trans inside'
            rename_i i x rest
            obtain ⟨r, bad, inner⟩ := (judged (List.mem_of_getElem? there)).told wrong
            refine ⟨_, r, rest, rfl, mem_members.mpr ⟨i, x, there, ?_, bad⟩, inner⟩
            rw [Nat.zero_add]
      have tidy : ∀ e ∈ (members check 0 items).2, e.2.Tidy := by
        rintro ⟨k, r⟩ mem
        obtain ⟨j, x, there, _, bad⟩ := mem_members.mp mem
        exact ((judged (List.mem_of_getElem? there)).of_error bad).1
      have distinct := nodup_members check 0 items
      revert exact tidy distinct
      dsimp only
      cases members check 0 items with
      | mk good bad =>
        cases bad with
        | nil =>
          intro exact _ _ way c wrong
          obtain ⟨_, _, _, _, mem, _⟩ := Report.at_fields_iff.mp ((exact way c).mpr wrong)
          exact List.not_mem_nil mem
        | cons e bad =>
          intro exact tidy distinct
          exact ⟨.fields (List.cons_ne_nil e bad) distinct tidy, exact⟩
  nonnull := by
    rintro v as ⟨items, inside, _⟩
    exact isNull_of_items inside

end Lists

/-! ### Texts and flags -/

/-- A value is a text, as such or as the bytes that it is written as. -/
def IsText (v : Value) (s : Text) : Prop :=
  v.scalar? = some (.text s) ∨ ∃ b, v.scalar? = some (.bytes b) ∧ s.encode = .ok b

inductive TextFlaw (v : Value) : List Scalar → Complaint → Prop
  | notText (unspelled : ∀ s, v.scalar? ≠ some (.text s)) (unwritten : v.NotBinary) : TextFlaw v [] .notText
  | notUtf8 {b : Bytes} (written : v.scalar? = some (.bytes b)) (unreadable : ∀ s, b ≠ Utf8.encode s) :
      TextFlaw v [] .notUtf8

theorem answers_notText {α : Type} {v : Value} (unspelled : ∀ s, v.scalar? ≠ some (.text s))
    (unwritten : v.NotBinary) : Answers (TextFlaw v) (.error (.one .notText) : Except Report α) := by
  refine Answers.one fun way c => ⟨?_, ?_⟩
  · rintro (_ | ⟨written, _⟩)
    · exact ⟨rfl, rfl⟩
    · exact absurd written (unwritten _)
  · rintro ⟨rfl, rfl⟩
    exact .notText unspelled unwritten

theorem exact_text (P : Value → Prop) : Exact P text IsText TextFlaw where
  accepts {v} _ a := by
    rw [text, IsText]
    cases v.scalar? with
    | none => simp
    | some s =>
      cases s with
      | text t => simp
      | bytes b =>
        simp only [Option.some.injEq, Scalar.bytes.injEq, reduceCtorEq, false_or, exists_eq_left',
          Text.encode_eq_ok_iff, @eq_comm _ (Utf8.encode _) b, ← Utf8.decode_eq_ok_iff]
        cases Utf8.decode b with
        | error f => simp
        | ok t => simp [eq_comm]
      | _ => simp
  answers {v} _ := by
    rw [text]
    cases h : v.scalar? with
    | none => exact answers_notText (by simp [h]) (by simp [Value.NotBinary, h])
    | some s =>
      cases s with
      | text t =>
        rintro way c (⟨unspelled, _⟩ | ⟨written, _⟩)
        · exact unspelled t h
        · cases h.symm.trans written
      | bytes b =>
        dsimp only
        cases read : Utf8.decode b with
        | error f =>
          refine Answers.one fun way c => ⟨?_, ?_⟩
          · rintro (⟨_, unwritten⟩ | _)
            · exact absurd h (unwritten b)
            · exact ⟨rfl, rfl⟩
          · rintro ⟨rfl, rfl⟩
            refine .notUtf8 h fun s same => ?_
            rw [Utf8.decode_eq_ok_iff.mpr same] at read
            cases read
        | ok t =>
          rintro way c (⟨_, unwritten⟩ | ⟨written, unreadable⟩)
          · exact unwritten b h
          · cases h.symm.trans written
            exact unreadable t (Utf8.decode_eq_ok_iff.mp read)
      | _ => exact answers_notText (by simp [h]) (by simp [Value.NotBinary, h])
  nonnull := by
    rintro v a (h | ⟨b, h, _⟩)
    · exact isNull_of_scalar h Scalar.noConfusion
    · exact isNull_of_scalar h Scalar.noConfusion

def IsString (v : Value) (s : Text) : Prop := v.scalar? = some (.text s)

inductive StringFlaw (v : Value) : List Scalar → Complaint → Prop
  | notText (other : ∀ s, ¬ IsString v s) : StringFlaw v [] .notText

theorem exact_string {P : Value → Prop} (plain : ∀ v, P v → v.NotBinary) :
    Exact P text IsString StringFlaw where
  accepts {v} proper a := by
    have spelled : ¬ ∃ b, v.scalar? = some (.bytes b) ∧ a.encode = .ok b := by
      rintro ⟨b, written, _⟩
      exact plain v proper.here b written
    rw [(exact_text P).accepts proper a, IsText, or_iff_left spelled]
    rfl
  answers {v} proper := by
    refine ((exact_text P).answers proper).congr fun way c => ⟨?_, ?_⟩
    · rintro (⟨unspelled, _⟩ | ⟨written, _⟩)
      · exact .notText unspelled
      · exact absurd written (plain v proper.here _)
    · rintro ⟨other⟩
      exact .notText other (plain v proper.here)
  nonnull given := isNull_of_scalar given Scalar.noConfusion

/-- The scalars that stand for a truth value: certain words, the truth values, and the numbers one and zero. -/
inductive Spells : Scalar → Bool → Prop
  | yes {s : Text} (word : s ∈ trueWords) : Spells (.text s) true
  | no {s : Text} (word : s ∈ falseWords) : Spells (.text s) false
  | bool (b : Bool) : Spells (.bool b) b
  | one : Spells (.int 1) true
  | zero : Spells (.int 0) false
  | floatOne {x : Double} (one : x.sameInt 1 = true) : Spells (.float x) true
  | floatZero {x : Double} (zero : x.sameInt 0 = true) : Spells (.float x) false

def IsFlag (v : Value) (b : Bool) : Prop := ∃ s, v.scalar? = some s ∧ Spells s b

inductive FlagFlaw (v : Value) : List Scalar → Complaint → Prop
  | notFlag (other : ∀ b, ¬ IsFlag v b) : FlagFlaw v [] .notFlag

theorem sameInt_zero_of_one {x : Double} (one : x.sameInt 1 = true) : x.sameInt 0 = false := by
  cases x with
  | finite s m e =>
    have pos : 0 < Double.natScale 1 (-e) := by
      rw [Double.natScale]
      split
      · exact Nat.mul_pos Nat.one_pos (Nat.two_pow_pos _)
      · exact Nat.one_pos
    simp only [Double.sameInt, Double.ratio?, decide_eq_true_eq, decide_eq_false_iff_not] at one ⊢
    omega
  | infinite s => cases one
  | nan => cases one

theorem choice_eq_ok {p q : Prop} [Decidable p] [Decidable q] (apart : p → ¬ q) (r : Report) (b : Bool) :
    (if p then .ok true else if q then .ok false else .error r : Except Report Bool) = .ok b ↔
      (p ∧ b = true) ∨ (q ∧ b = false) := by
  by_cases hp : p
  · simp [hp, apart hp, eq_comm]
  · by_cases hq : q <;> simp [hp, hq, eq_comm]

theorem flag_accepts (v : Value) (b : Bool) : flag v = .ok b ↔ IsFlag v b := by
  have words (s : Text) : s ∈ trueWords → ¬ s ∈ falseWords := by
    revert s
    decide
  rw [flag, IsFlag]
  cases v.scalar? with
  | none => simp
  | some s =>
    simp only [Option.some.injEq, exists_eq_left']
    cases s with
    | text s =>
      refine (choice_eq_ok (words s) _ b).trans ⟨?_, ?_⟩
      · rintro (⟨word, rfl⟩ | ⟨word, rfl⟩)
        · exact .yes word
        · exact .no word
      · rintro (word | word)
        · exact Or.inl ⟨word, rfl⟩
        · exact Or.inr ⟨word, rfl⟩
    | bool c =>
      constructor
      · rintro ⟨⟩
        exact .bool b
      · rintro ⟨⟩
        rfl
    | int n =>
      refine (choice_eq_ok (fun one zero => by omega) _ b).trans ⟨?_, ?_⟩
      · rintro (⟨rfl, rfl⟩ | ⟨rfl, rfl⟩)
        · exact .one
        · exact .zero
      · rintro (_ | _)
        · exact Or.inl ⟨rfl, rfl⟩
        · exact Or.inr ⟨rfl, rfl⟩
    | float x =>
      refine (choice_eq_ok (fun one zero => by simp [sameInt_zero_of_one one] at zero) _ b).trans ⟨?_, ?_⟩
      · rintro (⟨one, rfl⟩ | ⟨zero, rfl⟩)
        · exact .floatOne one
        · exact .floatZero zero
      · intro spells
        cases spells with
        | floatOne one => exact Or.inl ⟨one, rfl⟩
        | floatZero zero => exact Or.inr ⟨zero, rfl⟩
    | _ =>
      constructor
      · rintro ⟨⟩
      · rintro ⟨⟩

theorem exact_flag (P : Value → Prop) : Exact P flag IsFlag FlagFlaw where
  accepts {v} _ b := flag_accepts v b
  answers {v} _ := by
    have shape : (∃ b, flag v = .ok b) ∨ flag v = .error (.one .notFlag) := by
      unfold flag
      cases v.scalar? with
      | none => exact Or.inr rfl
      | some s =>
        cases s <;> dsimp only <;> (try split) <;> (try split) <;> simp
    rcases shape with ⟨b, ok⟩ | failed
    · rw [ok]
      rintro way c ⟨other⟩
      exact other b ((flag_accepts v b).mp ok)
    · rw [failed]
      refine Answers.one fun way c => ⟨?_, ?_⟩
      · rintro ⟨_⟩
        exact ⟨rfl, rfl⟩
      · rintro ⟨rfl, rfl⟩
        refine .notFlag fun b given => ?_
        rw [(flag_accepts v b).mpr given] at failed
        cases failed
  nonnull := by
    rintro v b ⟨s, h, spells⟩
    exact isNull_of_scalar h (by rintro rfl; cases spells)

theorem find?_name {α : Type} {all : List α} {name : α → String}
    (each : ∀ a, all.find? (fun b => name b = name a) = some a) (s : Text) (a : α) :
    all.find? (fun b => (name b : Text) = s) = some a ↔ s = name a := by
  constructor
  · intro found
    have named := List.find?_some found
    exact (of_decide_eq_true named).symm
  · rintro rfl
    simp only [Text.ofString_inj]
    exact each a

/-! ### Complaints that can be told -/

def Tellable (flaw : Flaw) : Prop := ∀ v way c, flaw v way c → c.isTold = true

theorem tellable_text : Tellable TextFlaw := by
  rintro v way c (_ | _) <;> rfl

theorem tellable_string : Tellable StringFlaw := by
  rintro v way c ⟨_⟩
  rfl

theorem tellable_flag : Tellable FlagFlaw := by
  rintro v way c ⟨_⟩
  rfl

theorem tellable_nullOr {flaw : Flaw} (h : Tellable flaw) : Tellable (NullOr flaw) := by
  rintro v way c (_ | ⟨_, wrong⟩)
  · rfl
  · exact h v way c wrong

theorem tellable_list {flaw : Flaw} (h : Tellable flaw) : Tellable (ListFlaw flaw) := by
  rintro v way c (_ | ⟨_, _, wrong⟩)
  · rfl
  · exact tellable_nullOr h _ _ c wrong

theorem RecordFlaw.untold {rules : List Rule} {v : Value} {way : List Scalar} {c : Complaint}
    (wrong : RecordFlaw rules v way c) (untold : c.isTold = false) :
    ∃ rule ∈ rules, ∃ entries x rest, v.entries? = some entries ∧ Value.field? entries rule.name = some x ∧
      way = .text rule.name :: rest ∧ rule.flaw x rest c := by
  rcases wrong with _ | ⟨inside, mem, broken⟩ | _
  · cases untold
  · rcases broken with _ | _ | ⟨stored, _, wrong⟩
    · cases untold
    · cases untold
    · exact ⟨_, mem, _, _, _, inside, stored, rfl, wrong⟩
  · cases untold

theorem tellable_record {rules : List Rule} (h : ∀ rule ∈ rules, Tellable rule.flaw) :
    Tellable (RecordFlaw rules) := by
  intro v way c wrong
  by_contra untold
  obtain ⟨rule, mem, _, x, rest, _, _, _, wrong⟩ := wrong.untold (Bool.eq_false_iff.mpr untold)
  exact untold (h rule mem x rest c wrong)

end SqlMigration.Schema
