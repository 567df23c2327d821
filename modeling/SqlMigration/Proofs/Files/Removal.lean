import SqlMigration.Files.Action
import SqlMigration.Proofs.Effect
import SqlMigration.Proofs.Files.Passage

/-!
# What removing takes away

A path names an entry. Removing takes away what is at the place of that entry and
below it, at most, and changes nothing else, whether it succeeds or not.
-/

set_option autoImplicit false

namespace SqlMigration.Files

open Effect

/-- The place of the entry that a path names. A link at the end of the path is an entry of its own. -/
def entry? (d : Disk) (path : String) : Option Place :=
  match d.find false path with
  | .ok (.node p _) => some p
  | _ => none

/-- The place is that of the entry that the path names, or below it. -/
def Covers (d : Disk) (path : String) (q : Place) : Prop := ∃ p ∈ entry? d path, p <+: q

instance (d : Disk) (path : String) (q : Place) : Decidable (Covers d path q) :=
  inferInstanceAs (Decidable (∃ p ∈ entry? d path, p <+: q))

theorem entry?_eq_some {d : Disk} {path : String} {p : Place} :
    entry? d path = some p ↔ ∃ x, d.find false path = .ok (.node p x) := by
  unfold entry?
  split
  · next q x found =>
    rw [found]
    simp
  · next none =>
    constructor
    · intro h
      cases h
    · rintro ⟨x, found⟩
      exact absurd found (none p x)

/-- The second disk is the first one without some of the lost places. -/
structure Pruned (d e : Disk) (lost : Place → Prop) : Prop where
  here : e.here = d.here
  rest : ∀ q, e.tree.node? q = d.tree.node? q ∨ (e.tree.node? q = none ∧ lost q)

theorem Pruned.refl (d : Disk) (lost : Place → Prop) : Pruned d d lost := ⟨rfl, fun _ => Or.inl rfl⟩

section Pruned

variable {d e : Disk} {lost : Place → Prop} (h : Pruned d e lost)
include h

theorem Pruned.keep {q : Place} {x : Node} (hx : e.tree.node? q = some x) :
    d.tree.node? q = some x := by
  rcases h.rest q with same | ⟨gone, -⟩
  · rw [← same, hx]
  · rw [gone] at hx
    cases hx

theorem Pruned.entry?_mono {path : String} {p : Place} (he : entry? e path = some p) :
    entry? d path = some p := by
  obtain ⟨x, found⟩ := entry?_eq_some.mp he
  exact entry?_eq_some.mpr ⟨x, Disk.find_mono h.here.symm (fun _ _ => h.keep) found⟩

/-- Where no place on the way of a path is lost, the path leads to the same. -/
theorem Pruned.find_eq {path : String} (spared : ∀ q ∈ d.passed path, ¬ lost q) (last : Bool) :
    e.find last path = d.find last path := by
  refine Disk.find_congr h.here last (fun q hq => ?_)
  rcases h.rest q with same | ⟨-, gone⟩
  · exact same
  · exact absurd gone (spared q hq)

theorem Pruned.cut {path : String} (within : ∀ q, Covers d path q → lost q) {p : Place} {x : Node}
    (found : e.find false path = .ok (.node p x)) {u : Tree}
    (less : ∀ q, u.node? q = e.tree.node? q ∨ (u.node? q = none ∧ p <+: q)) :
    Pruned d { e with tree := u } lost := by
  have entry := h.entry?_mono (entry?_eq_some.mpr ⟨x, found⟩)
  refine ⟨h.here, fun q => ?_⟩
  rcases less q with same | ⟨gone, below⟩
  · change u.node? q = _ ∨ u.node? q = none ∧ _
    rw [same]
    exact h.rest q
  · exact Or.inr ⟨gone, within q ⟨p, entry, below⟩⟩

end Pruned

theorem node?_remove_cases (t : Tree) (p q : Place) :
    (t.remove p).node? q = t.node? q ∨ ((t.remove p).node? q = none ∧ p <+: q) := by
  by_cases root : q = []
  · exact Or.inl (by rw [root]; rfl)
  · rw [Tree.node?_remove t root]
    by_cases e : q = p
    · exact Or.inr ⟨if_pos e, e ▸ List.prefix_refl _⟩
    · exact Or.inl (if_neg e)

theorem node?_clear_cases (t : Tree) (p q : Place) :
    (t.clear p).node? q = t.node? q ∨ ((t.clear p).node? q = none ∧ p <+: q) := by
  rw [Tree.node?_clear]
  by_cases below : Tree.isBelow p q = true
  · exact Or.inr ⟨if_pos below, (Tree.isBelow_iff.mp below).1⟩
  · exact Or.inl (if_neg below)

theorem keeps_containerPlace (I : Disk → Prop) (path : String) : Keeps I (containerPlace path) := by
  refine Keeps.get_bind (fun d hd => ?_)
  cases d.find true (Path.join (container path) ".") with
  | error r => exact hd
  | ok r =>
    cases r with
    | absent p => exact hd
    | node p x => cases x <;> exact hd

section Removal

variable {d : Disk} {lost : Place → Prop} {path : String} (within : ∀ q, Covers d path q → lost q)
include within

theorem keeps_removeDirectory : Keeps (fun e => Pruned d e lost) (removeDirectory path) := by
  unfold removeDirectory
  refine Keeps.ite (fun _ => ?_) (fun _ => Keeps.get_bind (fun e pruned => ?_))
  · exact Keeps.ite (fun _ => Keeps.bind (keeps_containerPlace _ path) (fun _ => Keeps.throw _))
      (fun _ => Keeps.throw _)
  · cases found : e.find false path with
    | error r => exact pruned
    | ok r =>
      cases r with
      | absent p => exact pruned
      | node p x =>
        cases x with
        | file content => exact pruned
        | link target => exact pruned
        | directory =>
          change Pruned d (final ((if p = [] then refuse .busy path else change (·.remove p) :
            Action Unit) e)) lost
          split
          · exact pruned
          · exact pruned.cut within found (node?_remove_cases e.tree p)

theorem keeps_removeTree : Keeps (fun e => Pruned d e lost) (removeTree path) := by
  intro e pruned
  unfold removeTree
  rw [bind_ok (get_apply e)]
  cases found : e.find false path with
  | error r => exact pruned
  | ok r =>
    have looked : orRefuse path (Except.ok r) e = .ok r e := rfl
    rw [bind_ok looked]
    cases r with
    | absent p => exact pruned
    | node p x =>
      cases x with
      | file content => exact pruned
      | link target =>
        dsimp only
        cases e.node true path <;> exact pruned
      | directory =>
        have cleared : change (·.clear p) e = .ok () { e with tree := e.tree.clear p } := rfl
        dsimp only
        rw [bind_ok cleared]
        exact keeps_removeDirectory within _ (pruned.cut within found (node?_clear_cases e.tree p))

theorem keeps_unlink : Keeps (fun e => Pruned d e lost) (unlink path) := by
  refine Keeps.get_bind (fun e pruned => ?_)
  cases found : e.find false path with
  | error r => exact pruned
  | ok r =>
    cases r with
    | absent p => exact pruned
    | node p x =>
      cases x with
      | directory => exact pruned
      | file content => exact pruned.cut within found (node?_remove_cases e.tree p)
      | link target => exact pruned.cut within found (node?_remove_cases e.tree p)

end Removal

end SqlMigration.Files
