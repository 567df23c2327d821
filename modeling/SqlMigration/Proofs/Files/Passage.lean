import SqlMigration.Proofs.Files.Lookup

/-!
# The places that a lookup passes

A lookup depends only on what is at the places that it passes. What it finds in a
tree it also finds in every tree that has more.
-/

set_option autoImplicit false

namespace SqlMigration.Files

open SqlMigration.Path

def passedFrom (t : Tree) (again : Place → List String → List Place) :
    Place → List String → List Place
  | _, [] => []
  | place, part :: rest =>
    if part = "." then passedFrom t again place rest
    else if part = ".." then passedFrom t again place.dropLast rest
    else
      let next := place ++ [part]
      next ::
        match t.node? next with
        | some .directory => passedFrom t again next rest
        | some (.link target) => again (startFrom place target) (steps target ++ rest)
        | _ => []

def passed (t : Tree) : Nat → Place → List String → List Place
  | 0 => passedFrom t (fun _ _ => [])
  | links + 1 => passedFrom t (passed t links)

def passedOnward (t : Tree) : Nat → Place → List String → List Place
  | 0 => fun _ _ => []
  | links + 1 => passed t links

theorem passed_cons (t : Tree) (k : Nat) (p : Place) (n : String) (ns : List String) :
    passed t k p (n :: ns) =
      if n = "." then passed t k p ns
      else if n = ".." then passed t k p.dropLast ns
      else
        (p ++ [n]) ::
          match t.node? (p ++ [n]) with
          | some .directory => passed t k (p ++ [n]) ns
          | some (.link target) => passedOnward t k (startFrom p target) (steps target ++ ns)
          | _ => [] := by
  cases k <;> rfl

theorem follow_congr {t u : Tree} (last : Bool) (k : Nat) (p : Place) (ns : List String)
    (h : ∀ q ∈ passed t k p ns, u.node? q = t.node? q) :
    follow u last k p ns = follow t last k p ns := by
  induction k, p, ns using follow_induction with
  | nil k p => rw [follow_nil, follow_nil]
  | cons k p n ns along onto =>
    rw [passed_cons] at h
    rw [follow_cons, follow_cons]
    by_cases dot : n = "."
    · rw [if_pos dot] at h
      rw [if_pos dot, if_pos dot, along p h]
    by_cases up : n = ".."
    · rw [if_neg dot, if_pos up] at h
      rw [if_neg dot, if_pos up, if_neg dot, if_pos up, along _ h]
    rw [if_neg dot, if_neg up] at h
    rw [if_neg dot, if_neg up, if_neg dot, if_neg up, h _ List.mem_cons_self]
    cases hx : t.node? (p ++ [n]) with
    | none => rfl
    | some x =>
      rw [hx] at h
      cases x with
      | file content => rfl
      | directory =>
        have rest := along (p ++ [n]) (fun q hq => h q (List.mem_cons_of_mem _ hq))
        simp only [rest]
      | link target =>
        cases k with
        | zero => rfl
        | succ j =>
          have rest := onto j (startFrom p target) (steps target ++ ns) rfl
            (fun q hq => h q (List.mem_cons_of_mem _ hq))
          simp only [onward, rest]

theorem follow_mono {t u : Tree} (keep : ∀ r x, t.node? r = some x → u.node? r = some x)
    {last : Bool} {k : Nat} {p : Place} {ns : List String} {q : Place} {x : Node}
    (h : follow t last k p ns = .ok (.node q x)) : follow u last k p ns = .ok (.node q x) := by
  replace h := finds_of_follow h
  generalize result : Found.node q x = r at h ⊢
  refine Finds.follow_eq ?_
  induction h with
  | done k p => exact .done k p
  | dot _ ih => exact .dot (ih result)
  | up _ ih => exact .up (ih result)
  | absent _ _ => cases result
  | file name here => exact .file name (keep _ _ here)
  | enter name here _ ih => exact .enter name (keep _ _ here) (ih result)
  | stop name here still => exact .stop name (keep _ _ here) still
  | link name here go _ ih => exact .link name (keep _ _ here) go (ih result)

end SqlMigration.Files

namespace SqlMigration.Disk

open Files

def passed (d : Disk) (path : String) : List Place :=
  Files.passed d.tree linkLimit (startFrom d.here path) (steps path)

theorem find_congr {d e : Disk} (here : e.here = d.here) {path : String} (last : Bool)
    (h : ∀ q ∈ d.passed path, e.tree.node? q = d.tree.node? q) :
    e.find last path = d.find last path := by
  simp only [find, here, follow_congr last linkLimit (startFrom d.here path) (steps path) h]

theorem find_mono {d e : Disk} (here : e.here = d.here)
    (keep : ∀ r x, d.tree.node? r = some x → e.tree.node? r = some x) {path : String} {last : Bool}
    {p : Place} {x : Node} (h : d.find last path = .ok (.node p x)) :
    e.find last path = .ok (.node p x) := by
  simp only [find] at h ⊢
  split_ifs at h ⊢
  rw [here]
  exact follow_mono keep h

end SqlMigration.Disk
