import Mathlib.Data.List.Nodup
import SqlMigration.Document.Value

/-!
# Parts of a value

A value has parts, down to the scalars and the keys in it; a value in a heap may
be a part of itself. Entries that are stored one after another have no key
twice.
-/

set_option autoImplicit false

namespace SqlMigration

namespace Scalar

theorem same_self {s : Scalar} (number : s ≠ .float .nan) : s.same s = true := by
  cases s with
  | float x => cases x <;> simp_all [same, number?, Double.same]
  | moment m => cases h : m.offset <;> simp [same, Moment.same, h]
  | _ => simp [same, number?]

theorem ofDouble_ne_nan (which : Nat) (x : Double) : ofDouble which x ≠ .float .nan := by
  cases x <;> simp [ofDouble]

end Scalar

/-! ### Entries by key -/

section Entries

variable {α : Type}

theorem keys_putEntry (entries : List (Scalar × α)) (k : Scalar) (v : α) :
    (putEntry entries k v).map Prod.fst =
      if entries.any (fun e => e.1.same k) then entries.map Prod.fst else entries.map Prod.fst ++ [k] := by
  induction entries with
  | nil => rfl
  | cons e rest ih =>
    obtain ⟨a, b⟩ := e
    cases h : a.same k with
    | true => simp [putEntry, h]
    | false =>
      rw [putEntry, if_neg (by simp [h]), List.map_cons, ih, List.any_cons, h, Bool.false_or]
      split <;> rfl

theorem nodup_putEntry {entries : List (Scalar × α)} {k : Scalar} (v : α) (same : k.same k = true)
    (distinct : (entries.map Prod.fst).Nodup) : ((putEntry entries k v).map Prod.fst).Nodup := by
  rw [keys_putEntry]
  split
  · exact distinct
  · next absent =>
    have new : k ∉ entries.map Prod.fst := by
      intro there
      obtain ⟨e, mem, rfl⟩ := List.mem_map.mp there
      exact absent (List.any_eq_true.mpr ⟨e, mem, same⟩)
    exact distinct.append (List.nodup_singleton k) (List.disjoint_singleton.mpr new)

theorem forall_putEntry {P : Scalar → Prop} {Q : α → Prop} {entries : List (Scalar × α)} {k : Scalar} {v : α}
    (old : ∀ e ∈ entries, P e.1 ∧ Q e.2) (key : P k) (value : Q v) :
    ∀ e ∈ putEntry entries k v, P e.1 ∧ Q e.2 := by
  induction entries with
  | nil => exact List.forall_mem_singleton.mpr ⟨key, value⟩
  | cons d rest ih =>
    obtain ⟨⟨a, b⟩, later⟩ := List.forall_mem_cons.mp old
    rw [putEntry]
    split
    · exact List.forall_mem_cons.mpr ⟨⟨a, value⟩, later⟩
    · exact List.forall_mem_cons.mpr ⟨⟨a, b⟩, ih later⟩

theorem nodup_entriesOf {pairs : List (Scalar × α)} (same : ∀ p ∈ pairs, p.1.same p.1 = true) :
    ((entriesOf pairs).map Prod.fst).Nodup := by
  have step : ∀ (ps entries : List (Scalar × α)), (∀ p ∈ ps, p.1.same p.1 = true) →
      (entries.map Prod.fst).Nodup →
      ((ps.foldl (fun es p => putEntry es p.1 p.2) entries).map Prod.fst).Nodup := by
    intro ps
    induction ps with
    | nil => exact fun _ _ distinct => distinct
    | cons p ps ih =>
      intro entries same distinct
      obtain ⟨first, rest⟩ := List.forall_mem_cons.mp same
      exact ih _ rest (nodup_putEntry p.2 first distinct)
  exact step pairs [] same List.nodup_nil

theorem forall_entriesOf {P : Scalar → Prop} {Q : α → Prop} {pairs : List (Scalar × α)}
    (given : ∀ p ∈ pairs, P p.1 ∧ Q p.2) : ∀ e ∈ entriesOf pairs, P e.1 ∧ Q e.2 := by
  have step : ∀ (ps entries : List (Scalar × α)), (∀ p ∈ ps, P p.1 ∧ Q p.2) →
      (∀ e ∈ entries, P e.1 ∧ Q e.2) →
      ∀ e ∈ ps.foldl (fun es p => putEntry es p.1 p.2) entries, P e.1 ∧ Q e.2 := by
    intro ps
    induction ps with
    | nil => exact fun _ _ old => old
    | cons p ps ih =>
      intro entries given old
      obtain ⟨first, rest⟩ := List.forall_mem_cons.mp given
      exact ih _ rest (forall_putEntry old first.1 first.2)
  exact step pairs [] given (fun _ mem => absurd mem List.not_mem_nil)

end Entries

namespace Value

theorem field?_eq_find? (entries : List (Scalar × Value)) (name : String) :
    field? entries name = (entries.find? (fun e => e.1 = .text name)).map Prod.snd := by
  induction entries with
  | nil => rfl
  | cons e rest ih =>
    obtain ⟨k, v⟩ := e
    cases k with
    | text s => by_cases h : s = name <;> simp [field?, h, ih]
    | _ => simp [field?, ih]

theorem mem_of_field? {entries : List (Scalar × Value)} {name : String} {x : Value}
    (h : field? entries name = some x) : (.text name, x) ∈ entries := by
  rw [field?_eq_find?] at h
  obtain ⟨e, found, rfl⟩ := Option.map_eq_some_iff.mp h
  have key : e.1 = .text name := by simpa using List.find?_some found
  rw [← key]
  exact List.mem_of_find?_eq_some found

theorem field?_eq_none_iff (entries : List (Scalar × Value)) (name : String) :
    field? entries name = none ↔ .text name ∉ entries.map Prod.fst := by
  rw [field?_eq_find?, Option.map_eq_none_iff, List.find?_eq_none]
  simp only [decide_eq_true_eq, List.mem_map, not_exists, not_and]

/-! ### Parts -/

/-- A value is a part of itself, and so are the keys, the entries, the members and the halves of its parts. -/
inductive HasPart (v : Value) : Value → Prop
  | self : HasPart v v
  | key {x y : Value} {k : Scalar} {entries : List (Scalar × Value)} (part : HasPart v x)
      (inside : x.entries? = some entries) (mem : (k, y) ∈ entries) : HasPart v (.scalar k)
  | entry {x y : Value} {k : Scalar} {entries : List (Scalar × Value)} (part : HasPart v x)
      (inside : x.entries? = some entries) (mem : (k, y) ∈ entries) : HasPart v y
  | item {x y : Value} {items : List Value} (part : HasPart v x) (inside : x.items? = some items)
      (mem : y ∈ items) : HasPart v y
  | first {x a b : Value} (part : HasPart v x) (inside : x.layer = .pair a b) : HasPart v a
  | second {x a b : Value} (part : HasPart v x) (inside : x.layer = .pair a b) : HasPart v b

theorem HasPart.trans {u v w : Value} (first : u.HasPart v) (second : v.HasPart w) : u.HasPart w := by
  induction second with
  | self => exact first
  | key _ inside mem ih => exact .key ih inside mem
  | entry _ inside mem ih => exact .entry ih inside mem
  | item _ inside mem ih => exact .item ih inside mem
  | first _ inside ih => exact .first ih inside
  | second _ inside ih => exact .second ih inside

def Throughout (P : Value → Prop) (v : Value) : Prop := ∀ x, v.HasPart x → P x

namespace Throughout

variable {P : Value → Prop} {v x : Value}

theorem here (h : v.Throughout P) : P v := h v .self

theorem part (h : v.Throughout P) (inside : v.HasPart x) : x.Throughout P :=
  fun y hy => h y (inside.trans hy)

theorem key {k : Scalar} {entries : List (Scalar × Value)} (h : v.Throughout P)
    (inside : v.entries? = some entries) (mem : (k, x) ∈ entries) : (Value.scalar k).Throughout P :=
  h.part (.key .self inside mem)

theorem entry {k : Scalar} {entries : List (Scalar × Value)} (h : v.Throughout P)
    (inside : v.entries? = some entries) (mem : (k, x) ∈ entries) : x.Throughout P :=
  h.part (.entry .self inside mem)

theorem field {name : String} {entries : List (Scalar × Value)} (h : v.Throughout P)
    (inside : v.entries? = some entries) (stored : Value.field? entries name = some x) : x.Throughout P :=
  h.entry inside (mem_of_field? stored)

theorem item {items : List Value} (h : v.Throughout P) (inside : v.items? = some items)
    (mem : x ∈ items) : x.Throughout P :=
  h.part (.item .self inside mem)

theorem of_inside (here : P v)
    (entries : ∀ es, v.entries? = some es →
      ∀ e ∈ es, (Value.scalar e.1).Throughout P ∧ e.2.Throughout P)
    (items : ∀ is, v.items? = some is → ∀ x ∈ is, x.Throughout P)
    (halves : ∀ a b, v.layer = .pair a b → a.Throughout P ∧ b.Throughout P) : v.Throughout P := by
  have split (x : Value) (part : v.HasPart x) : x = v ∨ x.Throughout P := by
    induction part with
    | self => exact Or.inl rfl
    | key _ inside mem ih =>
      rcases ih with rfl | ih
      · exact Or.inr (entries _ inside _ mem).1
      · exact Or.inr (ih.key inside mem)
    | entry _ inside mem ih =>
      rcases ih with rfl | ih
      · exact Or.inr (entries _ inside _ mem).2
      · exact Or.inr (ih.entry inside mem)
    | item _ inside mem ih =>
      rcases ih with rfl | ih
      · exact Or.inr (items _ inside _ mem)
      · exact Or.inr (ih.item inside mem)
    | first _ inside ih =>
      rcases ih with rfl | ih
      · exact Or.inr (halves _ _ inside).1
      · exact Or.inr (ih.part (.first .self inside))
    | second _ inside ih =>
      rcases ih with rfl | ih
      · exact Or.inr (halves _ _ inside).2
      · exact Or.inr (ih.part (.second .self inside))
  intro x part
  rcases split x part with rfl | inner
  · exact here
  · exact inner.here

theorem scalar {s : Scalar} (h : P (.scalar s)) : (Value.scalar s).Throughout P :=
  of_inside h (fun _ inside => nomatch inside) (fun _ inside => nomatch inside)
    (fun _ _ inside => nomatch inside)

theorem list {vs : List Value} (here : P (.list vs)) (inside : ∀ x ∈ vs, x.Throughout P) :
    (Value.list vs).Throughout P := by
  refine of_inside here (fun _ inside => nomatch inside) ?_ (fun _ _ inside => nomatch inside)
  rintro is ⟨⟩
  exact inside

theorem map {es : List (Scalar × Value)} (here : P (.map es))
    (inside : ∀ e ∈ es, (Value.scalar e.1).Throughout P ∧ e.2.Throughout P) :
    (Value.map es).Throughout P := by
  refine of_inside here ?_ (fun _ inside => nomatch inside) (fun _ _ inside => nomatch inside)
  rintro es ⟨⟩
  exact inside

end Throughout

def Distinct (v : Value) : Prop := ∀ entries, v.entries? = some entries → (entries.map Prod.fst).Nodup

def NotBinary (v : Value) : Prop := ∀ b, v.scalar? ≠ some (.bytes b)

def Plain (v : Value) : Prop := v.Distinct ∧ v.NotBinary

end Value

end SqlMigration
