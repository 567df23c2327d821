import Mathlib.Data.List.Perm.Subperm
import Mathlib.Logic.Relation
import SqlMigration.Document.Literal
import SqlMigration.Proofs.Document.Parts

/-!
# Values in a heap

The parts of a value in a heap are the places that can be reached from its own,
and the scalars in them. A value is shown by a walk along the places that it
reaches, cut short where a place is met again inside itself. Nothing is lost by
that: the walk comes by every place that can be reached, so that a value cannot
be shown exactly when it has an integer beyond the limit somewhere.
-/

set_option autoImplicit false

namespace SqlMigration

theorem mem_of_getD {α : Type} {xs : Array α} {i : Nat} {fallback x : α} (h : xs.getD i fallback = x)
    (other : fallback ≠ x) : x ∈ xs := by
  rw [Array.getD_eq_getD_getElem?] at h
  cases there : xs[i]? with
  | none =>
    rw [there] at h
    exact absurd h other
  | some y =>
    rw [there, Option.getD_some] at h
    exact h ▸ Array.mem_of_getElem? there

/-! ### Places and scalars in a part -/

namespace Part

def inner : Part → List Nat
  | .list items => items
  | .pairs items => items.flatMap (fun p => [p.1, p.2])
  | .map entries => entries.map Prod.snd
  | _ => []

def scalars : Part → List Scalar
  | .scalar s => [s]
  | .set members => members
  | .map entries => entries.map Prod.fst
  | _ => []

end Part

def Scalar.isBytes : Scalar → Bool
  | .bytes _ => true
  | _ => false

def Heap.Reaches (h : Heap) : Nat → Nat → Prop := Relation.ReflTransGen (fun i j => j ∈ (h.part i).inner)

namespace Value

/-- What a value at a place of a heap is made of: the places it reaches, pairs of them, and the scalars
there. -/
inductive Within (h : Heap) (i : Nat) : Value → Prop
  | place {j : Nat} (reached : h.Reaches i j) : Within h i (.place h j)
  | pair {j k : Nat} (first : h.Reaches i j) (second : h.Reaches i k) :
      Within h i (.pair (.place h j) (.place h k))
  | scalar {j : Nat} {s : Scalar} (reached : h.Reaches i j) (mem : s ∈ (h.part j).scalars) :
      Within h i (.scalar s)

variable {h : Heap} {i j : Nat}

theorem entries?_place {entries : List (Scalar × Value)} (inside : (place h j).entries? = some entries) :
    ∃ es, h.part j = .map es ∧ entries = es.map (fun e => (e.1, .place h e.2)) := by
  simp only [entries?, layer] at inside
  cases part : h.part j with
  | map es =>
    rw [part] at inside
    exact ⟨es, rfl, (Option.some.inj inside).symm⟩
  | _ =>
    rw [part] at inside
    cases inside

theorem Within.entry {v x : Value} {k : Scalar} {entries : List (Scalar × Value)} (within : Within h i v)
    (inside : v.entries? = some entries) (mem : (k, x) ∈ entries) :
    Within h i (.scalar k) ∧ ∃ j, x = .place h j ∧ h.Reaches i j := by
  cases within with
  | @place j reached =>
    obtain ⟨es, part, rfl⟩ := entries?_place inside
    obtain ⟨e, there, eq⟩ := List.mem_map.mp mem
    cases eq
    refine ⟨.scalar reached ?_, e.2, rfl, reached.tail ?_⟩
    · rw [part]
      exact List.mem_map_of_mem there
    · rw [part]
      exact List.mem_map_of_mem there
  | pair _ _ => cases inside
  | scalar _ _ => cases inside

theorem Within.item {v x : Value} {items : List Value} (within : Within h i v)
    (inside : v.items? = some items) (mem : x ∈ items) : Within h i x := by
  cases within with
  | @place j reached =>
    simp only [items?, layer] at inside
    cases part : h.part j with
    | list is =>
      rw [part] at inside
      cases inside
      obtain ⟨k, there, rfl⟩ := List.mem_map.mp mem
      refine .place (reached.tail ?_)
      rw [part]
      exact there
    | pairs is =>
      rw [part] at inside
      cases inside
      obtain ⟨p, there, rfl⟩ := List.mem_map.mp mem
      have inner (k : Nat) (half : k ∈ [p.1, p.2]) : h.Reaches i k := by
        refine reached.tail ?_
        rw [part]
        exact List.mem_flatMap.mpr ⟨p, there, half⟩
      exact .pair (inner p.1 (by simp)) (inner p.2 (by simp))
    | set members =>
      rw [part] at inside
      cases inside
      obtain ⟨s, there, rfl⟩ := List.mem_map.mp mem
      refine .scalar reached ?_
      rw [part]
      exact there
    | _ =>
      rw [part] at inside
      cases inside
  | pair _ _ => cases inside
  | scalar _ _ => cases inside

theorem Within.halves {v a b : Value} (within : Within h i v) (inside : v.layer = .pair a b) :
    Within h i a ∧ Within h i b := by
  cases within with
  | @place j _ =>
    simp only [layer] at inside
    cases part : h.part j <;> rw [part] at inside <;> cases inside
  | pair first second =>
    cases inside
    exact ⟨.place first, .place second⟩
  | scalar _ _ => cases inside

theorem Within.part {v x : Value} (within : Within h i v) (part : v.HasPart x) : Within h i x := by
  induction part with
  | self => exact within
  | key _ inside mem ih => exact (ih.entry inside mem).1
  | entry _ inside mem ih =>
    obtain ⟨_, j, rfl, reached⟩ := ih.entry inside mem
    exact .place reached
  | item _ inside mem ih => exact ih.item inside mem
  | first _ inside ih => exact (ih.halves inside).1
  | second _ inside ih => exact (ih.halves inside).2

theorem hasPart_inner (mem : j ∈ (h.part i).inner) : (place h i).HasPart (.place h j) := by
  cases part : h.part i with
  | list items =>
    rw [part] at mem
    have inside : (place h i).items? = some (items.map (.place h)) := by simp only [items?, layer, part, ofPart]
    exact .item .self inside (List.mem_map_of_mem mem)
  | pairs items =>
    rw [part] at mem
    obtain ⟨p, there, half⟩ := List.mem_flatMap.mp mem
    have inside : (place h i).items? = some (items.map (fun p => .pair (.place h p.1) (.place h p.2))) := by
      simp only [items?, layer, part, ofPart]
    have pair := HasPart.item .self inside (List.mem_map_of_mem there)
    simp only [List.mem_cons, List.not_mem_nil, or_false] at half
    rcases half with rfl | rfl
    · exact .first pair rfl
    · exact .second pair rfl
  | map entries =>
    rw [part] at mem
    obtain ⟨e, there, rfl⟩ := List.mem_map.mp mem
    have inside : (place h i).entries? = some (entries.map (fun e => (e.1, .place h e.2))) := by
      simp only [entries?, layer, part, ofPart]
    exact .entry .self inside (List.mem_map_of_mem there)
  | _ =>
    rw [part] at mem
    cases mem

theorem hasPart_reached (reached : h.Reaches i j) : (place h i).HasPart (.place h j) := by
  induction reached with
  | refl => exact .self
  | tail _ mem ih => exact ih.trans (hasPart_inner mem)

theorem hasPart_scalars {s : Scalar} (mem : s ∈ (h.part i).scalars) :
    ∃ x, (place h i).HasPart x ∧ x.scalar? = some s := by
  cases part : h.part i with
  | scalar t =>
    rw [part] at mem
    cases List.mem_singleton.mp mem
    exact ⟨_, .self, by simp only [scalar?, layer, part, ofPart]⟩
  | set members =>
    rw [part] at mem
    have inside : (place h i).items? = some (members.map .scalar) := by simp only [items?, layer, part, ofPart]
    exact ⟨_, .item .self inside (List.mem_map_of_mem mem), rfl⟩
  | map entries =>
    rw [part] at mem
    obtain ⟨e, there, rfl⟩ := List.mem_map.mp mem
    have inside : (place h i).entries? = some (entries.map (fun e => (e.1, .place h e.2))) := by
      simp only [entries?, layer, part, ofPart]
    exact ⟨_, .key .self inside (List.mem_map_of_mem there), rfl⟩
  | _ =>
    rw [part] at mem
    cases mem

theorem scalars_of_hasPart {x : Value} {s : Scalar} (part : (place h i).HasPart x)
    (known : x.scalar? = some s) :
    ∃ j, h.Reaches i j ∧ s ∈ (h.part j).scalars := by
  cases (Within.place (i := i) .refl).part part with
  | @place j reached =>
    refine ⟨j, reached, ?_⟩
    simp only [scalar?, layer] at known
    cases there : h.part j with
    | scalar t =>
      rw [there] at known
      cases known
      exact List.mem_singleton_self s
    | _ =>
      rw [there] at known
      cases known
  | pair _ _ => cases known
  | scalar reached mem =>
    cases known
    exact ⟨_, reached, mem⟩

def isPlainPlace : Value → Bool
  | .place h _ => h.all (fun p => !p.scalars.any Scalar.isBytes)
  | _ => false

theorem notBinary_of_isPlainPlace {v : Value} (plain : v.isPlainPlace = true) : v.Throughout NotBinary := by
  cases v with
  | place h i =>
    intro x part b known
    obtain ⟨j, _, mem⟩ := scalars_of_hasPart part known
    by_cases outside : h.part j = .scalar .null
    · rw [outside] at mem
      cases List.mem_singleton.mp mem
    · have fine := Array.all_eq_true_iff_forall_mem.mp plain _ (mem_of_getD rfl (Ne.symm outside))
      rw [Bool.not_eq_true', List.any_eq_false] at fine
      exact fine _ mem rfl
  | _ => cases plain

end Value

/-! ### Values that cannot be shown -/

theorem mapM_eq_none {α β : Type} {f : α → Option β} {l : List α} :
    l.mapM f = none ↔ ∃ a ∈ l, f a = none := by
  induction l with
  | nil => simp
  | cons a l ih =>
    rw [List.mapM_cons]
    cases ha : f a with
    | none => simp [ha]
    | some b => cases hl : l.mapM f <;> simp_all

theorem map_eq_none {α β : Type} {x : Option α} {f : α → β} :
    (do return f (← x) : Option β) = none ↔ x = none := by
  cases x <;> simp

theorem map₂_eq_none {α β γ : Type} {x : Option α} {y : Option β} {f : α → β → γ} :
    (do return f (← x) (← y) : Option γ) = none ↔ x = none ∨ y = none := by
  cases x <;> cases y <;> simp

theorem Literal.members?_eq_none {members : List Scalar} :
    members? members = none ↔ ∃ s ∈ members, s.literal? = none := by
  cases members with
  | nil => simp [members?]
  | cons s members => exact map_eq_none.trans mapM_eq_none

theorem Scalar.literal?_eq_none {s : Scalar} :
    s.literal? = none ↔ ∃ n, s = .int n ∧ Nat.pow 10 digitLimit ≤ n.natAbs := by
  cases s <;> simp [literal?, intText?]

theorem Scalar.display?_eq_none {s : Scalar} : s.display? = none ↔ s.literal? = none := by
  cases s <;> simp [display?, literal?]

namespace Heap

variable {h : Heap}

theorem literal?_fresh {fuel : Nat} {around : List Nat} {i : Nat} (fresh : i ∉ around) :
    h.literal? (fuel + 1) around i = none ↔
      (∃ s ∈ (h.part i).scalars, s.literal? = none) ∨
        ∃ j ∈ (h.part i).inner, h.literal? fuel (i :: around) j = none := by
  rw [literal?]
  cases h.part i with
  | scalar s => simp [Part.scalars, Part.inner]
  | list items =>
    dsimp only
    rw [if_neg fresh, map_eq_none, mapM_eq_none]
    simp [Part.scalars, Part.inner]
  | pairs items =>
    dsimp only
    rw [if_neg fresh, map_eq_none, mapM_eq_none]
    simp only [map₂_eq_none, Part.scalars, Part.inner, List.mem_flatMap]
    constructor
    · rintro ⟨p, mem, hidden | hidden⟩
      · exact Or.inr ⟨p.1, ⟨p, mem, by simp⟩, hidden⟩
      · exact Or.inr ⟨p.2, ⟨p, mem, by simp⟩, hidden⟩
    · rintro (⟨_, mem, _⟩ | ⟨j, ⟨p, mem, half⟩, hidden⟩)
      · cases mem
      · simp only [List.mem_cons, List.not_mem_nil, or_false] at half
        rcases half with rfl | rfl
        · exact ⟨p, mem, Or.inl hidden⟩
        · exact ⟨p, mem, Or.inr hidden⟩
  | set members =>
    dsimp only
    rw [Literal.members?_eq_none]
    simp [Part.scalars, Part.inner]
  | map entries =>
    dsimp only
    rw [if_neg fresh, map_eq_none, mapM_eq_none]
    simp only [map₂_eq_none, Part.scalars, Part.inner, List.mem_map]
    grind

theorem inside_of_literal? {fuel : Nat} {around : List Nat} {i : Nat}
    (hidden : h.literal? (fuel + 1) around i = none) :
    (∃ s ∈ (h.part i).scalars, s.literal? = none) ∨
      ∃ j ∈ (h.part i).inner, h.literal? fuel (i :: around) j = none := by
  by_cases fresh : i ∈ around
  · rw [literal?] at hidden
    cases hp : h.part i with
    | scalar s =>
      rw [hp] at hidden
      exact Or.inl ⟨s, List.mem_singleton_self s, hidden⟩
    | set members =>
      rw [hp] at hidden
      exact Or.inl (Literal.members?_eq_none.mp hidden)
    | _ =>
      rw [hp] at hidden
      dsimp only at hidden
      rw [if_pos fresh] at hidden
      cases hidden
  · exact (literal?_fresh fresh).mp hidden

theorem reaches_of_literal? {fuel : Nat} {around : List Nat} {i : Nat}
    (hidden : h.literal? fuel around i = none) :
    ∃ j, h.Reaches i j ∧ ∃ s ∈ (h.part j).scalars, s.literal? = none := by
  induction fuel generalizing around i with
  | zero => cases hidden
  | succ fuel ih =>
    rcases inside_of_literal? hidden with here | ⟨j, mem, inner⟩
    · exact ⟨i, .refl, here⟩
    · obtain ⟨k, reached, found⟩ := ih inner
      exact ⟨k, .head mem reached, found⟩

/-- A way that the walk takes from a place: no place on it is met twice. -/
inductive Trail (h : Heap) (i : Nat) : List Nat → Nat → Prop
  | start : Trail h i [] i
  | step {around : List Nat} {j k : Nat} (before : Trail h i around j) (mem : k ∈ (h.part j).inner)
      (fresh : k ∉ j :: around) : Trail h i (j :: around) k

namespace Trail

variable {i j : Nat} {around : List Nat}

theorem nodup (trail : Trail h i around j) : (j :: around).Nodup := by
  induction trail with
  | start => exact List.nodup_singleton i
  | step _ _ fresh ih => exact List.nodup_cons.mpr ⟨fresh, ih⟩

theorem bounded (trail : Trail h i around j) : ∀ k ∈ around, k < h.size := by
  induction trail with
  | start => exact fun _ mem => absurd mem List.not_mem_nil
  | @step around j k _ mem _ ih =>
    refine List.forall_mem_cons.mpr ⟨?_, ih⟩
    by_contra outside
    have empty : h.part j = .scalar .null := by
      rw [part, Array.getD_eq_getD_getElem?, Array.getElem?_eq_none (Nat.le_of_not_lt outside)]
      rfl
    rw [empty] at mem
    cases mem

theorem length_le (trail : Trail h i around j) : around.length ≤ h.size := by
  have inside : around ⊆ List.range h.size := fun k mem => List.mem_range.mpr (trail.bounded k mem)
  have short := (List.subperm_of_subset (List.nodup_cons.mp trail.nodup).2 inside).length_le
  rwa [List.length_range] at short

theorem exists_of_mem (trail : Trail h i around j) : ∀ k ∈ j :: around, ∃ others, Trail h i others k := by
  induction trail with
  | start => exact List.forall_mem_singleton.mpr ⟨[], .start⟩
  | step before mem fresh ih => exact List.forall_mem_cons.mpr ⟨⟨_, .step before mem fresh⟩, ih⟩

theorem exists_of_reaches (reached : h.Reaches i j) : ∃ around, Trail h i around j := by
  induction reached with
  | refl => exact ⟨[], .start⟩
  | @tail j k _ mem ih =>
    obtain ⟨around, trail⟩ := ih
    by_cases met : k ∈ j :: around
    · exact trail.exists_of_mem k met
    · exact ⟨_, .step trail mem met⟩

theorem literal?_start (trail : Trail h i around j) {fuel : Nat} (hidden : h.literal? fuel around j = none) :
    h.literal? (around.length + fuel) [] i = none := by
  induction trail generalizing fuel with
  | start => rwa [List.length_nil, Nat.zero_add]
  | @step around j k before mem _ ih =>
    have outer := (literal?_fresh (List.nodup_cons.mp before.nodup).1).mpr (Or.inr ⟨k, mem, hidden⟩)
    rw [List.length_cons, Nat.add_right_comm, Nat.add_assoc]
    exact ih outer

end Trail

theorem literal?_eq_none {i : Nat} :
    h.literal? (h.size + 1) [] i = none ↔ ∃ j, h.Reaches i j ∧ ∃ s ∈ (h.part j).scalars, s.literal? = none := by
  refine ⟨reaches_of_literal?, ?_⟩
  rintro ⟨j, reached, found⟩
  obtain ⟨around, trail⟩ := Trail.exists_of_reaches reached
  have here : h.literal? (h.size - around.length + 1) around j = none :=
    (literal?_fresh (List.nodup_cons.mp trail.nodup).1).mpr (Or.inl found)
  have whole := trail.literal?_start here
  rwa [← Nat.add_assoc, Nat.add_sub_cancel' trail.length_le] at whole

end Heap

namespace Value

/-- A value is an integer beyond the limit for numbers in texts. -/
def Long (v : Value) : Prop := ∃ n, v.scalar? = some (.int n) ∧ Nat.pow 10 digitLimit ≤ n.natAbs

theorem display?_place (h : Heap) (i : Nat) :
    (place h i).display? = none ↔ h.literal? (h.size + 1) [] i = none := by
  rw [display?, layer]
  cases part : h.part i with
  | scalar s =>
    rw [Heap.literal?, part]
    exact Scalar.display?_eq_none
  | _ => exact Option.map_eq_none_iff

theorem display?_eq_none {h : Heap} {i : Nat} :
    (place h i).display? = none ↔ ∃ x, (place h i).HasPart x ∧ x.Long := by
  rw [display?_place, Heap.literal?_eq_none]
  constructor
  · rintro ⟨j, reached, s, mem, hidden⟩
    obtain ⟨n, rfl, long⟩ := Scalar.literal?_eq_none.mp hidden
    obtain ⟨x, part, known⟩ := hasPart_scalars mem
    exact ⟨x, (hasPart_reached reached).trans part, n, known, long⟩
  · rintro ⟨x, part, n, known, long⟩
    obtain ⟨j, reached, mem⟩ := scalars_of_hasPart part known
    exact ⟨j, reached, _, mem, Scalar.literal?_eq_none.mpr ⟨n, rfl, long⟩⟩

end Value

end SqlMigration
