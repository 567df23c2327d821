import Mathlib.Data.List.Induction
import Mathlib.Data.List.Nodup
import SqlMigration.Proofs.Files.PathText
import SqlMigration.Proofs.Tables

/-!
# Sound trees

In a sound tree every entry has a proper name, not too long, and stands in a
directory, and no place is listed twice. The names in a directory then depend only on what is at
its places, and storing in a directory keeps the tree sound.
-/

set_option autoImplicit false

namespace SqlMigration.Tree

open SqlMigration.Path

structure Sound (t : Tree) : Prop where
  nodup : (Table.keys t.entries).Nodup
  proper : ∀ p x, t.node? p = some x → AllProper p
  short : ∀ p x, t.node? p = some x → ∀ n ∈ p, Files.byteLength n ≤ Files.nameLimit
  above : ∀ p n x, t.node? (p ++ [n]) = some x → t.node? p = some .directory

@[simp]
theorem node?_root (t : Tree) : t.node? [] = some .directory := rfl

theorem concat_ne_nil (p : Place) (n : String) : p ++ [n] ≠ [] := by simp

theorem node?_concat (t : Tree) (p : Place) (n : String) :
    t.node? (p ++ [n]) = Table.get? t.entries (p ++ [n]) := by
  simp [node?]

theorem node?_put (t : Tree) {p : Place} (hp : p ≠ []) (q : Place) (x : Node) :
    (t.put p x).node? q = if p = q then some x else t.node? q := by
  split
  · next h => rw [← h, node?_put_self hp]
  · next h => exact node?_put_of_ne h

theorem node?_clear (t : Tree) (p q : Place) :
    (t.clear p).node? q = if isBelow p q then none else t.node? q := by
  by_cases hq : q = []
  · subst hq
    simp [node?, isBelow]
  · simp only [node?, clear, if_neg hq]
    rw [Table.get?_filter t.entries (fun e => !isBelow p e) q]
    cases isBelow p q <;> simp

theorem node?_remove (t : Tree) {p q : Place} (hq : q ≠ []) :
    (t.remove p).node? q = if q = p then none else t.node? q := by
  simp only [node?, remove, if_neg hq]
  exact Table.get?_remove t.entries p q

theorem isBelow_iff {p q : Place} : isBelow p q = true ↔ p <+: q ∧ p ≠ q := by
  simp only [isBelow, Bool.and_eq_true, List.isPrefixOf_iff_prefix, decide_eq_true_eq]
  constructor
  · rintro ⟨h, hl⟩
    exact ⟨h, fun e => by rw [e] at hl; exact Nat.lt_irrefl _ hl⟩
  · rintro ⟨h, hne⟩
    refine ⟨h, ?_⟩
    have hle := h.length_le
    rcases Nat.lt_or_ge p.length q.length with hl | hl
    · exact hl
    · exact absurd (h.eq_of_length (Nat.le_antisymm hle hl)) hne

/-! ### Names in a directory -/

theorem mem_names (t : Tree) (p : Place) (n : String) :
    n ∈ t.names p ↔ ∃ x, t.node? (p ++ [n]) = some x := by
  rw [names, List.mem_mergeSort, List.mem_filterMap]
  constructor
  · rintro ⟨⟨q, x⟩, he, h⟩
    by_cases hd : q.dropLast = p
    · rw [if_pos hd] at h
      obtain ⟨r, rfl⟩ := List.getLast?_eq_some_iff.mp h
      rw [List.dropLast_concat] at hd
      subst hd
      rw [node?_concat]
      cases hg : Table.get? t.entries (r ++ [n]) with
      | some y => exact ⟨y, rfl⟩
      | none => exact absurd (List.mem_map.mpr ⟨_, he, rfl⟩) ((Table.get?_eq_none_iff _ _).mp hg)
    · rw [if_neg hd] at h
      cases h
  · rintro ⟨x, h⟩
    rw [node?_concat] at h
    exact ⟨_, Table.mem_of_get? h, by simp⟩

theorem nameLE_iff (a b : String) : nameLE a b = true ↔ a ≤ b := by
  rw [nameLE, Bool.not_eq_true', decide_eq_false_iff_not, String.not_lt]

theorem pairwise_mergeSort_of_key {α : Type} (key : α → String) {le : α → α → Bool}
    (h : ∀ a b, le a b = true ↔ key a ≤ key b) (xs : List α) :
    (xs.mergeSort le).Pairwise (fun a b => key a ≤ key b) := by
  have trans : ∀ a b c, le a b = true → le b c = true → le a c = true := by
    intro a b c hab hbc
    rw [h] at hab hbc ⊢
    exact String.le_trans hab hbc
  have total : ∀ a b, (le a b || le b a) = true := by
    intro a b
    rw [Bool.or_eq_true, h, h]
    exact String.le_total (key a) (key b)
  exact (List.pairwise_mergeSort trans total xs).imp (fun {a b} hab => (h a b).mp hab)

theorem names_pairwise (t : Tree) (p : Place) : (t.names p).Pairwise (fun a b => a ≤ b) :=
  pairwise_mergeSort_of_key (fun n => n) nameLE_iff _

theorem names_nodup {t : Tree} (h : (Table.keys t.entries).Nodup) (p : Place) :
    (t.names p).Nodup := by
  have hp := List.mergeSort_perm
    (t.entries.filterMap (fun e => if e.1.dropLast = p then e.1.getLast? else none)) nameLE
  refine hp.nodup_iff.mpr ?_
  have hk : t.entries.filterMap (fun e => if e.1.dropLast = p then e.1.getLast? else none) =
      (Table.keys t.entries).filterMap (fun q => if q.dropLast = p then q.getLast? else none) := by
    rw [Table.keys, List.filterMap_map]
    rfl
  rw [hk]
  refine h.filterMap ?_
  intro q r n hq hr
  -- two places in one directory with one name are the same place
  have whole : ∀ s : Place, n ∈ (if s.dropLast = p then s.getLast? else none) → s = p ++ [n] := by
    intro s hs
    by_cases hd : s.dropLast = p
    · rw [if_pos hd] at hs
      obtain ⟨u, rfl⟩ := List.getLast?_eq_some_iff.mp hs
      rw [List.dropLast_concat] at hd
      rw [hd]
    · rw [if_neg hd] at hs
      cases hs
  rw [whole q hq, whole r hr]

theorem eq_of_ordered {l k : List String} (hl : l.Pairwise (fun a b => a ≤ b))
    (hk : k.Pairwise (fun a b => a ≤ b)) (nl : l.Nodup) (nk : k.Nodup) (same : ∀ n, n ∈ l ↔ n ∈ k) :
    l = k :=
  ((List.perm_ext_iff_of_nodup nl nk).mpr same).eq_of_pairwise
    (fun _ _ _ _ hab hba => String.le_antisymm hab hba) hl hk

/-- The names in a directory depend only on which of its places are taken. -/
theorem names_congr {t u : Tree} (ht : (Table.keys t.entries).Nodup)
    (hu : (Table.keys u.entries).Nodup) {p : Place}
    (h : ∀ n, t.node? (p ++ [n]) = u.node? (p ++ [n])) : t.names p = u.names p := by
  refine eq_of_ordered (names_pairwise t p) (names_pairwise u p) (names_nodup ht p) (names_nodup hu p)
    (fun n => ?_)
  rw [mem_names, mem_names, h n]

/-! ### Soundness -/

section Sound

variable {t : Tree} (h : t.Sound)
include h

theorem Sound.directory_of_below {p q : Place} {x : Node} (hx : t.node? (p ++ q) = some x)
    (hq : q ≠ []) : t.node? p = some .directory := by
  induction q using List.reverseRecOn generalizing x with
  | nil => exact absurd rfl hq
  | append_singleton q n ih =>
    rw [← List.append_assoc] at hx
    have hd := h.above _ _ _ hx
    by_cases hne : q = []
    · rwa [hne, List.append_nil] at hd
    · exact ih hd hne

theorem Sound.directory_of_prefix {p q : Place} {x : Node} (hx : t.node? q = some x)
    (hp : p <+: q) (hne : p ≠ q) : t.node? p = some .directory := by
  obtain ⟨r, rfl⟩ := hp
  exact h.directory_of_below hx (fun e => hne (by rw [e, List.append_nil]))

theorem Sound.dropLast {p : Place} (hp : t.node? p = some .directory) :
    t.node? p.dropLast = some .directory := by
  by_cases hne : p = []
  · subst hne
    rfl
  · refine h.above p.dropLast (p.getLast hne) .directory ?_
    rwa [List.dropLast_concat_getLast]

theorem Sound.none_below {p q : Place} (hp : t.node? p ≠ some .directory) (hpq : p <+: q)
    (hne : p ≠ q) : t.node? q = none := by
  cases hx : t.node? q with
  | none => rfl
  | some x => exact absurd (h.directory_of_prefix hx hpq hne) hp

theorem Sound.not_prefix_of_files {p q : Place} {a b : Bytes} (hp : t.node? p = some (.file a))
    (hq : t.node? q = some (.file b)) (hne : p ≠ q) : ¬ p <+: q := by
  intro hpq
  have := h.directory_of_prefix hq hpq hne
  rw [hp] at this
  cases this

theorem Sound.put {p : Place} {n : String} {x : Node} (hp : t.node? p = some .directory)
    (hn : Proper n) (hl : Files.byteLength n ≤ Files.nameLimit)
    (hx : t.node? (p ++ [n]) = some .directory → x = .directory) : (t.put (p ++ [n]) x).Sound where
  nodup := Table.nodup_put h.nodup _ _
  proper := by
    intro q y hy
    rw [node?_put t (concat_ne_nil p n)] at hy
    split at hy
    · next e =>
      rw [← e]
      exact (h.proper p _ hp).concat hn
    · exact h.proper q y hy
  short := by
    intro q y hy m hm
    rw [node?_put t (concat_ne_nil p n)] at hy
    split at hy
    · next e =>
      rw [← e, List.mem_append, List.mem_singleton] at hm
      rcases hm with hm | rfl
      · exact h.short p _ hp m hm
      · exact hl
    · exact h.short q y hy m hm
  above := by
    intro q m y hy
    rw [node?_put t (concat_ne_nil p n)] at hy ⊢
    split at hy
    · next e =>
      obtain ⟨rfl, -⟩ := List.append_inj' e rfl
      rwa [if_neg (by simp)]
    · have hq := h.above q m y hy
      split
      · next e => rw [hx (e ▸ hq)]
      · exact hq

end Sound

theorem mem_entries {t : Tree} {p : Place} {x : Node} (hp : p ≠ []) (hx : t.node? p = some x) :
    (p, x) ∈ t.entries := by
  rw [node?, if_neg hp] at hx
  exact Table.mem_of_get? hx

theorem mem_entries_of_link {t : Tree} {p : Place} {target : String}
    (hx : t.node? p = some (.link target)) : (p, .link target) ∈ t.entries := by
  refine mem_entries ?_ hx
  rintro rfl
  cases hx

theorem forall_below {t : Tree} {place : Place} (hp : place ≠ []) {P : Place → Node → Prop}
    (h : ∀ e ∈ t.entries, place <+: e.1 → P (e.1.drop place.length) e.2) (q : Place) (x : Node)
    (hx : t.node? (place ++ q) = some x) : P q x := by
  have there := h _ (mem_entries (by simp [hp]) hx) (List.prefix_append place q)
  rwa [List.drop_left] at there

theorem sound_of_entries {t : Tree} (nodup : (Table.keys t.entries).Nodup)
    (h : ∀ e ∈ t.entries, AllProper e.1 ∧ (∀ n ∈ e.1, Files.byteLength n ≤ Files.nameLimit) ∧
      t.node? e.1.dropLast = some .directory) : t.Sound where
  nodup := nodup
  proper := by
    intro p x hx
    by_cases hp : p = []
    · rw [hp]
      exact fun _ hn => absurd hn List.not_mem_nil
    · exact (h _ (mem_entries hp hx)).1
  short := by
    intro p x hx
    by_cases hp : p = []
    · rw [hp]
      exact fun _ hn => absurd hn List.not_mem_nil
    · exact (h _ (mem_entries hp hx)).2.1
  above := by
    intro p n x hx
    have there := (h _ (mem_entries (concat_ne_nil p n) hx)).2.2
    rwa [List.dropLast_concat] at there

end SqlMigration.Tree

namespace SqlMigration

/-- A sound tree, and paths start from a directory of it. -/
structure Disk.Sound (d : Disk) : Prop where
  tree : d.tree.Sound
  here : d.tree.node? d.here = some .directory

end SqlMigration
