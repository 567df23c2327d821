import Mathlib.Data.List.Forall2
import SqlMigration.Proofs.Document.Parts
import SqlMigration.Proofs.Schema.Reports
import SqlMigration.Schema.Field

/-!
# Checks that tell exactly what is wrong

A check is compared with two descriptions that do not depend on it: what an
acceptable value gives, and which flaws a value has, each a complaint at the end
of a way into the value. The check is exact when it accepts the values that give
something, and reports the flaws of the others, all of them and no more. A
record is checked exactly when each of its fields is.
-/

set_option autoImplicit false

namespace SqlMigration.Schema

abbrev Flaw := Value → List Scalar → Complaint → Prop

/-- An outcome answers for what may be wrong: a success when nothing is, and a report of exactly that when
something is. -/
def Answers {α : Type} (wrong : List Scalar → Complaint → Prop) : Except Report α → Prop
  | .ok _ => ∀ way c, ¬ wrong way c
  | .error r => r.Tidy ∧ ∀ way c, r.At way c ↔ wrong way c

/-- Among the values whose parts all have a property. -/
structure Exact (P : Value → Prop) {α : Type} (check : Check α) (gives : Value → α → Prop) (flaw : Flaw) :
    Prop where
  accepts {v : Value} (proper : v.Throughout P) (a : α) : check v = .ok a ↔ gives v a
  answers {v : Value} (proper : v.Throughout P) : Answers (flaw v) (check v)
  nonnull {v : Value} {a : α} (given : gives v a) : isNull v = false

namespace Answers

variable {α β : Type} {wrong wrong' : List Scalar → Complaint → Prop} {outcome : Except Report α}

theorem congr (h : Answers wrong outcome) (same : ∀ way c, wrong way c ↔ wrong' way c) :
    Answers wrong' outcome := by
  cases outcome with
  | ok a => exact fun way c w => h way c ((same way c).mpr w)
  | error r => exact ⟨h.1, fun way c => (h.2 way c).trans (same way c)⟩

theorem map (h : Answers wrong outcome) (f : α → β) : Answers wrong (outcome.map f) := by
  cases outcome with
  | ok a => exact h
  | error r => exact h

theorem one {d : Complaint} (only : ∀ way c, wrong way c ↔ way = [] ∧ c = d) :
    Answers wrong (.error (.one d) : Except Report α) :=
  ⟨.one d, fun _ _ => Report.at_one_iff.trans (only _ _).symm⟩

theorem told (h : Answers wrong outcome) {way : List Scalar} {c : Complaint} (w : wrong way c) :
    ∃ r, outcome = .error r ∧ r.At way c := by
  cases outcome with
  | ok a => exact absurd w (h way c)
  | error r => exact ⟨r, rfl, (h.2 way c).mpr w⟩

theorem of_error (h : Answers wrong outcome) {r : Report} (failed : outcome = .error r) :
    r.Tidy ∧ ∀ way c, r.At way c ↔ wrong way c := by
  subst failed
  exact h

end Answers

theorem Exact.clear {P : Value → Prop} {α : Type} {check : Check α} {gives : Value → α → Prop} {flaw : Flaw}
    (h : Exact P check gives flaw) {v : Value} (proper : v.Throughout P) {a : α} (given : gives v a)
    (way : List Scalar) (c : Complaint) : ¬ flaw v way c := by
  have answer := h.answers proper
  rw [(h.accepts proper a).mpr given] at answer
  exact answer way c

theorem Exact.refuses {P : Value → Prop} {α : Type} {check : Check α} {gives : Value → α → Prop}
    {flaw : Flaw} (h : Exact P check gives flaw) {v : Value} (proper : v.Throughout P)
    (nothing : ∀ a, ¬ gives v a) :
    ∃ r, check v = .error r ∧ r.Tidy ∧ ∀ way c, r.At way c ↔ flaw v way c := by
  have answer := h.answers proper
  cases hc : check v with
  | ok a => exact absurd ((h.accepts proper a).mp hc) (nothing a)
  | error r =>
    rw [hc] at answer
    exact ⟨r, rfl, answer⟩

theorem isNull_iff (v : Value) : isNull v = true ↔ v.scalar? = some .null := by
  rw [isNull, decide_eq_true_eq]

theorem isNull_of_scalar {v : Value} {s : Scalar} (h : v.scalar? = some s) (other : s ≠ .null) :
    isNull v = false := by
  rw [← Bool.not_eq_true, isNull_iff, h]
  exact fun same => other (Option.some.inj same)

theorem isNull_of_entries {v : Value} {entries : List (Scalar × Value)} (h : v.entries? = some entries) :
    isNull v = false := by
  rw [← Bool.not_eq_true, isNull_iff]
  revert h
  unfold Value.entries? Value.scalar?
  cases v.layer <;> simp

theorem isNull_of_items {v : Value} {items : List Value} (h : v.items? = some items) : isNull v = false := by
  rw [← Bool.not_eq_true, isNull_iff]
  revert h
  unfold Value.items? Value.scalar?
  cases v.layer <;> simp

/-! ### Fields -/

structure Rule where
  name : String
  needed : Bool
  nullable : Bool
  flaw : Flaw

namespace Rule

def required (name : String) (flaw : Flaw) : Rule := ⟨name, true, false, flaw⟩

def optional (name : String) (flaw : Flaw) : Rule := ⟨name, false, false, flaw⟩

def orNull (name : String) (flaw : Flaw) : Rule := ⟨name, false, true, flaw⟩

/-- How a field can be wrong: it is missing, it is null, or the value in it has a flaw. -/
inductive Broken (rule : Rule) (entries : List (Scalar × Value)) : List Scalar → Complaint → Prop
  | missing (needed : rule.needed = true) (absent : Value.field? entries rule.name = none) :
      Broken rule entries [] .missing
  | null {x : Value} (stored : Value.field? entries rule.name = some x) (null : isNull x = true)
      (refused : rule.nullable = false) : Broken rule entries [] .null
  | within {x : Value} {way : List Scalar} {c : Complaint} (stored : Value.field? entries rule.name = some x)
      (nonnull : isNull x = false) (wrong : rule.flaw x way c) : Broken rule entries way c

end Rule

def Stored (entries : List (Scalar × Value)) (name : String) (holds : Value → Prop) : Prop :=
  ∃ x, Value.field? entries name = some x ∧ holds x

/-- A field gives something, or it is left out and the fallback stands in. -/
def StoredOr {α : Type} (fallback : α) (entries : List (Scalar × Value)) (name : String)
    (gives : Value → α → Prop) (a : α) : Prop :=
  (Value.field? entries name = none ∧ a = fallback) ∨ Stored entries name (gives · a)

/-- A field gives something, or it is left out or null and gives nothing. -/
def StoredOrNull {α : Type} (entries : List (Scalar × Value)) (name : String) (gives : Value → α → Prop) :
    Option α → Prop
  | none => ∀ x, Value.field? entries name = some x → isNull x = true
  | some a => Stored entries name (gives · a)

section Fields

variable {P : Value → Prop} {α : Type} {check : Check α} {gives : Value → α → Prop} {flaw : Flaw}
  {entries : List (Scalar × Value)} {name : String}

theorem present_accepts (h : Exact P check gives flaw) {x : Value} (proper : x.Throughout P) (a : α) :
    present check x = .ok a ↔ gives x a := by
  rw [present]
  cases null : isNull x with
  | true =>
    rw [if_pos rfl]
    constructor
    · rintro ⟨⟩
    · intro given
      rw [h.nonnull given] at null
      cases null
  | false =>
    rw [if_neg Bool.false_ne_true]
    exact h.accepts proper a

/-- A null is wrong where it is not allowed, and any other value by its flaws. -/
inductive NullOr (flaw : Flaw) (x : Value) : List Scalar → Complaint → Prop
  | null (null : isNull x = true) : NullOr flaw x [] .null
  | within {way : List Scalar} {c : Complaint} (nonnull : isNull x = false) (wrong : flaw x way c) :
      NullOr flaw x way c

theorem present_answers (h : Exact P check gives flaw) {x : Value} (proper : x.Throughout P) :
    Answers (NullOr flaw x) (present check x) := by
  rw [present]
  cases null : isNull x with
  | true =>
    rw [if_pos rfl]
    refine Answers.one fun way c => ⟨?_, ?_⟩
    · rintro (_ | ⟨nonnull, _⟩)
      · exact ⟨rfl, rfl⟩
      · rw [null] at nonnull
        cases nonnull
    · rintro ⟨rfl, rfl⟩
      exact .null null
  | false =>
    rw [if_neg Bool.false_ne_true]
    refine (h.answers proper).congr fun way c => ⟨.within null, ?_⟩
    rintro (null' | ⟨_, wrong⟩)
    · rw [null] at null'
      cases null'
    · exact wrong

theorem Rule.broken_stored (rule : Rule) {x : Value} (stored : Value.field? entries rule.name = some x)
    (strict : rule.nullable = false) (way : List Scalar) (c : Complaint) :
    NullOr rule.flaw x way c ↔ rule.Broken entries way c := by
  constructor
  · rintro (null | ⟨nonnull, wrong⟩)
    · exact .null stored null strict
    · exact .within stored nonnull wrong
  · rintro (⟨_, absent⟩ | ⟨stored', null, _⟩ | ⟨stored', nonnull, wrong⟩)
    · rw [absent] at stored
      cases stored
    · cases stored.symm.trans stored'
      exact .null null
    · cases stored.symm.trans stored'
      exact .within nonnull wrong

theorem required_answers (h : Exact P check gives flaw)
    (proper : ∀ x, Value.field? entries name = some x → x.Throughout P) :
    Answers ((Rule.required name flaw).Broken entries) (required check entries name) := by
  rw [required]
  cases stored : Value.field? entries name with
  | none =>
    refine Answers.one fun way c => ⟨?_, ?_⟩
    · rintro (_ | ⟨there, _, _⟩ | ⟨there, _, _⟩)
      · exact ⟨rfl, rfl⟩
      · cases stored.symm.trans there
      · cases stored.symm.trans there
    · rintro ⟨rfl, rfl⟩
      exact .missing rfl stored
  | some x =>
    exact (present_answers h (proper x stored)).congr (Rule.broken_stored (.required name flaw) stored rfl)

theorem required_accepts (h : Exact P check gives flaw)
    (proper : ∀ x, Value.field? entries name = some x → x.Throughout P) (a : α) :
    required check entries name = .ok a ↔ Stored entries name (gives · a) := by
  rw [required, Stored]
  cases stored : Value.field? entries name with
  | none => simp
  | some x => simp [present_accepts h (proper x stored)]

theorem withDefault_answers (fallback : α) (h : Exact P check gives flaw)
    (proper : ∀ x, Value.field? entries name = some x → x.Throughout P) :
    Answers ((Rule.optional name flaw).Broken entries) (withDefault fallback check entries name) := by
  rw [withDefault]
  cases stored : Value.field? entries name with
  | none =>
    rintro way c (⟨needed, _⟩ | ⟨there, _, _⟩ | ⟨there, _, _⟩)
    · cases needed
    · cases stored.symm.trans there
    · cases stored.symm.trans there
  | some x =>
    exact (present_answers h (proper x stored)).congr (Rule.broken_stored (.optional name flaw) stored rfl)

theorem withDefault_accepts {fallback : α} (h : Exact P check gives flaw)
    (proper : ∀ x, Value.field? entries name = some x → x.Throughout P) (a : α) :
    withDefault fallback check entries name = .ok a ↔ StoredOr fallback entries name gives a := by
  rw [withDefault, StoredOr, Stored]
  cases stored : Value.field? entries name with
  | none => simp [eq_comm]
  | some x => simp [present_accepts h (proper x stored)]

theorem nullable_answers (h : Exact P check gives flaw)
    (proper : ∀ x, Value.field? entries name = some x → x.Throughout P) :
    Answers ((Rule.orNull name flaw).Broken entries) (nullable check entries name) := by
  rw [nullable]
  cases stored : Value.field? entries name with
  | none =>
    rintro way c (⟨needed, _⟩ | ⟨_, _, refused⟩ | ⟨there, _, _⟩)
    · cases needed
    · cases refused
    · cases stored.symm.trans there
  | some x =>
    dsimp only
    cases null : isNull x with
    | true =>
      rw [if_pos rfl]
      rintro way c (⟨needed, _⟩ | ⟨_, _, refused⟩ | ⟨there, nonnull, _⟩)
      · cases needed
      · cases refused
      · cases stored.symm.trans there
        cases null.symm.trans nonnull
    | false =>
      rw [if_neg Bool.false_ne_true]
      refine ((h.answers (proper x stored)).map some).congr fun way c =>
        ⟨fun wrong => .within stored null wrong, ?_⟩
      rintro (⟨needed, _⟩ | ⟨_, _, refused⟩ | ⟨there, _, wrong⟩)
      · cases needed
      · cases refused
      · cases stored.symm.trans there
        exact wrong

theorem nullable_accepts (h : Exact P check gives flaw)
    (proper : ∀ x, Value.field? entries name = some x → x.Throughout P) (o : Option α) :
    nullable check entries name = .ok o ↔ StoredOrNull entries name gives o := by
  rw [nullable]
  cases stored : Value.field? entries name with
  | none => cases o <;> simp [StoredOrNull, Stored, stored]
  | some x =>
    dsimp only
    cases null : isNull x with
    | true =>
      have nothing (a : α) : ¬ gives x a := by
        intro given
        rw [h.nonnull given] at null
        cases null
      cases o <;> simp [StoredOrNull, Stored, stored, null, nothing]
    | false =>
      have accepts := h.accepts (proper x stored)
      cases o with
      | none =>
        simp only [StoredOrNull, stored, Option.some.injEq, forall_eq', null]
        cases check x <;> simp [Except.map]
      | some a =>
        simp only [StoredOrNull, Stored, stored, Option.some.injEq, exists_eq_left']
        rw [if_neg Bool.false_ne_true, ← accepts a]
        cases check x <;> simp [Except.map]

end Fields

end SqlMigration.Schema
