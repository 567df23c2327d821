import Mathlib.Data.List.Induction
import SqlMigration.Proofs.Files.Joined
import SqlMigration.Proofs.Files.Trees

/-!
# What lookups find

A path that leads to a directory, through links or not, can be extended by
names. Where no links stand below the directory, such a lookup finds what the
tree has at the place, and it goes on to find it when the tree grows.
-/

set_option autoImplicit false

namespace SqlMigration.Files

open SqlMigration.Path

def onward (t : Tree) (last : Bool) : Nat → Place → List String → Except Reason Found
  | 0 => fun _ _ => .error .tooManyLinks
  | links + 1 => follow t last links

theorem follow_eq (t : Tree) (last : Bool) (k : Nat) :
    follow t last k = descend t last (onward t last k) := by
  cases k <;> rfl

theorem follow_nil (t : Tree) (last : Bool) (k : Nat) (p : Place) :
    follow t last k p [] = .ok (.node p .directory) := by
  rw [follow_eq]
  rfl

theorem follow_cons (t : Tree) (last : Bool) (k : Nat) (p : Place) (n : String) (ns : List String) :
    follow t last k p (n :: ns) =
      if n = "." then follow t last k p ns
      else if n = ".." then follow t last k p.dropLast ns
      else if nameLimit < byteLength n then .error .nameTooLong
      else
        match t.node? (p ++ [n]) with
        | none => if ns.isEmpty then .ok (.absent (p ++ [n])) else .error .missing
        | some .directory => follow t last k (p ++ [n]) ns
        | some (.file content) =>
          if ns.isEmpty then .ok (.node (p ++ [n]) (.file content)) else .error .notDirectory
        | some (.link target) =>
          if ns.isEmpty && !last then .ok (.node (p ++ [n]) (.link target))
          else onward t last k (startFrom p target) (steps target ++ ns) := by
  rw [follow_eq]
  rfl

/-- A part of a path that is looked up as a name. -/
structure IsName (n : String) : Prop where
  notDot : n ≠ "."
  notParent : n ≠ ".."
  short : byteLength n ≤ nameLimit

theorem isName_of_proper {n : String} (hn : Proper n) (short : byteLength n ≤ nameLimit) : IsName n :=
  ⟨hn.notDot, hn.notParent, short⟩

theorem IsName.follow_cons {t : Tree} {last : Bool} {k : Nat} {p : Place} {n : String}
    {ns : List String} (name : IsName n) :
    follow t last k p (n :: ns) =
      match t.node? (p ++ [n]) with
      | none => if ns.isEmpty then .ok (.absent (p ++ [n])) else .error .missing
      | some .directory => follow t last k (p ++ [n]) ns
      | some (.file content) =>
        if ns.isEmpty then .ok (.node (p ++ [n]) (.file content)) else .error .notDirectory
      | some (.link target) =>
        if ns.isEmpty && !last then .ok (.node (p ++ [n]) (.link target))
        else onward t last k (startFrom p target) (steps target ++ ns) := by
  rw [Files.follow_cons, if_neg name.notDot, if_neg name.notParent, if_neg (Nat.not_lt.mpr name.short)]

/-- Lookups go along the parts, and from a link on with one link fewer to spend. -/
theorem follow_induction {motive : Nat → Place → List String → Prop}
    (nil : ∀ k p, motive k p [])
    (cons : ∀ k p n ns, (∀ q, motive k q ns) → (∀ j q ms, k = j + 1 → motive j q ms) →
      motive k p (n :: ns))
    (k : Nat) (p : Place) (ns : List String) : motive k p ns := by
  induction k generalizing p ns with
  | zero =>
    induction ns generalizing p with
    | nil => exact nil 0 p
    | cons n ns ih => exact cons 0 p n ns ih (fun _ _ _ h => nomatch h)
  | succ k more =>
    induction ns generalizing p with
    | nil => exact nil (k + 1) p
    | cons n ns ih =>
      refine cons (k + 1) p n ns ih (fun j q ms h => ?_)
      cases h
      exact more q ms

def Found.place : Found → Place
  | .node p _ => p
  | .absent p => p

def Found.node? : Found → Option Node
  | .node _ x => some x
  | .absent _ => none

/-- What a lookup finds with so many links to spend, and how it comes there. -/
inductive Finds (t : Tree) (last : Bool) : Nat → Place → List String → Found → Prop where
  | done (k : Nat) (p : Place) : Finds t last k p [] (.node p .directory)
  | dot {k : Nat} {p : Place} {ns : List String} {r : Found} (more : Finds t last k p ns r) :
      Finds t last k p ("." :: ns) r
  | up {k : Nat} {p : Place} {ns : List String} {r : Found} (more : Finds t last k p.dropLast ns r) :
      Finds t last k p (".." :: ns) r
  | absent {k : Nat} {p : Place} {n : String} (name : IsName n) (here : t.node? (p ++ [n]) = none) :
      Finds t last k p [n] (.absent (p ++ [n]))
  | file {k : Nat} {p : Place} {n : String} {content : Bytes} (name : IsName n)
      (here : t.node? (p ++ [n]) = some (.file content)) :
      Finds t last k p [n] (.node (p ++ [n]) (.file content))
  | enter {k : Nat} {p : Place} {n : String} {ns : List String} {r : Found} (name : IsName n)
      (here : t.node? (p ++ [n]) = some .directory) (more : Finds t last k (p ++ [n]) ns r) :
      Finds t last k p (n :: ns) r
  | stop {k : Nat} {p : Place} {n target : String} (name : IsName n)
      (here : t.node? (p ++ [n]) = some (.link target)) (still : last = false) :
      Finds t last k p [n] (.node (p ++ [n]) (.link target))
  | link {k : Nat} {p : Place} {n target : String} {ns : List String} {r : Found} (name : IsName n)
      (here : t.node? (p ++ [n]) = some (.link target)) (go : (ns.isEmpty && !last) = false)
      (more : Finds t last k (startFrom p target) (steps target ++ ns) r) :
      Finds t last (k + 1) p (n :: ns) r

theorem finds_of_follow {t : Tree} {last : Bool} {k : Nat} {p : Place} {ns : List String} {r : Found}
    (h : follow t last k p ns = .ok r) : Finds t last k p ns r := by
  induction k, p, ns using follow_induction with
  | nil k p =>
    rw [follow_nil] at h
    cases h
    exact .done k p
  | cons k p n ns along onto =>
    rw [follow_cons] at h
    by_cases dot : n = "."
    · rw [if_pos dot] at h
      exact dot ▸ .dot (along p h)
    by_cases up : n = ".."
    · rw [if_neg dot, if_pos up] at h
      exact up ▸ .up (along _ h)
    by_cases long : nameLimit < byteLength n
    · rw [if_neg dot, if_neg up, if_pos long] at h
      cases h
    have name : IsName n := ⟨dot, up, Nat.not_lt.mp long⟩
    rw [if_neg dot, if_neg up, if_neg long] at h
    cases here : t.node? (p ++ [n]) with
    | none =>
      rw [here] at h
      cases ns with
      | nil =>
        cases h
        exact .absent name here
      | cons m ms => cases h
    | some x =>
      rw [here] at h
      cases x with
      | directory => exact .enter name here (along _ h)
      | file content =>
        cases ns with
        | nil =>
          cases h
          exact .file name here
        | cons m ms => cases h
      | link target =>
        dsimp only at h
        cases go : ns.isEmpty && !last with
        | true =>
          rw [go, if_pos rfl] at h
          cases h
          rw [Bool.and_eq_true, List.isEmpty_iff, Bool.not_eq_true'] at go
          rw [go.1]
          exact .stop name here go.2
        | false =>
          rw [go, if_neg Bool.false_ne_true] at h
          cases k with
          | zero => cases h
          | succ j => exact .link name here go (onto j _ _ rfl h)

theorem Finds.follow_eq {t : Tree} {last : Bool} {k : Nat} {p : Place} {ns : List String} {r : Found}
    (h : Finds t last k p ns r) : follow t last k p ns = .ok r := by
  induction h with
  | done k p => exact follow_nil t last k p
  | dot _ ih => rw [follow_cons, if_pos rfl, ih]
  | up _ ih => rw [follow_cons, if_neg (by decide), if_pos rfl, ih]
  | absent name here | file name here =>
    rw [name.follow_cons, here]
    rfl
  | enter name here _ ih => rw [name.follow_cons, here, ← ih]
  | stop name here still =>
    rw [name.follow_cons, here, still]
    rfl
  | link name here go _ ih =>
    rw [name.follow_cons, here, ← ih]
    dsimp only
    rw [go, if_neg Bool.false_ne_true]
    rfl

/-- The way of a lookup through directories and links to a directory; of `k` links `j` are left. -/
inductive Way (t : Tree) : Nat → Place → List String → Nat → Place → Prop where
  | done (k : Nat) (p : Place) : Way t k p [] k p
  | dot {k j : Nat} {p q : Place} {ns : List String} (more : Way t k p ns j q) :
      Way t k p ("." :: ns) j q
  | up {k j : Nat} {p q : Place} {ns : List String} (more : Way t k p.dropLast ns j q) :
      Way t k p (".." :: ns) j q
  | enter {k j : Nat} {p q : Place} {n : String} {ns : List String} (dot : n ≠ ".") (up : n ≠ "..")
      (short : byteLength n ≤ nameLimit) (here : t.node? (p ++ [n]) = some .directory)
      (more : Way t k (p ++ [n]) ns j q) : Way t k p (n :: ns) j q
  | link {k j : Nat} {p q : Place} {n target : String} {ns : List String} (dot : n ≠ ".")
      (up : n ≠ "..") (short : byteLength n ≤ nameLimit)
      (here : t.node? (p ++ [n]) = some (.link target))
      (more : Way t k (startFrom p target) (steps target ++ ns) j q) : Way t (k + 1) p (n :: ns) j q

theorem exists_way {t : Tree} {k : Nat} {p q : Place} {ns : List String}
    (h : follow t true k p ns = .ok (.node q .directory)) : ∃ j, Way t k p ns j q := by
  replace h := finds_of_follow h
  generalize result : Found.node q .directory = r at h
  induction h with
  | done k p =>
    cases result
    exact ⟨k, .done k q⟩
  | dot _ ih =>
    obtain ⟨j, way⟩ := ih result
    exact ⟨j, .dot way⟩
  | up _ ih =>
    obtain ⟨j, way⟩ := ih result
    exact ⟨j, .up way⟩
  | absent _ _ | file _ _ | stop _ _ _ => cases result
  | enter name here _ ih =>
    obtain ⟨j, way⟩ := ih result
    exact ⟨j, .enter name.notDot name.notParent name.short here way⟩
  | link name here _ _ ih =>
    obtain ⟨j, way⟩ := ih result
    exact ⟨j, .link name.notDot name.notParent name.short here way⟩

namespace Way

variable {t : Tree} {k j : Nat} {p q : Place} {ns : List String}

/-- A lookup that has gone its way to a directory goes on from there with what is left. -/
theorem follow_append (h : Way t k p ns j q) {last : Bool} {ms : List String}
    (hm : last = true ∨ ms ≠ []) : follow t last k p (ns ++ ms) = follow t last j q ms := by
  induction h with
  | done k p => rfl
  | dot _ ih => rw [List.cons_append, follow_cons, if_pos rfl, ih]
  | up _ ih => rw [List.cons_append, follow_cons, if_neg (by decide), if_pos rfl, ih]
  | enter dot up short here _ ih =>
    rw [List.cons_append, follow_cons, if_neg dot, if_neg up, if_neg (Nat.not_lt.mpr short), here, ← ih]
  | @link k j p q n target ns dot up short here _ ih =>
    have more : ((ns ++ ms).isEmpty && !last) = false := by
      rcases hm with rfl | hm
      · simp
      · simp [hm]
    rw [List.cons_append, follow_cons, if_neg dot, if_neg up, if_neg (Nat.not_lt.mpr short), here, ← ih]
    simp only [more, Bool.false_eq_true, if_false, onward, List.append_assoc]

theorem follow_eq (h : Way t k p ns j q) : follow t true k p ns = .ok (.node q .directory) := by
  have key : follow t true k p (ns ++ []) = follow t true j q [] := h.follow_append (Or.inl rfl)
  rwa [List.append_nil, follow_nil] at key

/-- The way stays open in a tree that has all directories and links that were there. -/
theorem stays {u : Tree} (h : Way t k p ns j q)
    (keep : ∀ r x, t.node? r = some x → (∀ c, x ≠ .file c) → u.node? r = some x) : Way u k p ns j q := by
  induction h with
  | done k p => exact .done k p
  | dot _ ih => exact .dot ih
  | up _ ih => exact .up ih
  | enter dot up short here _ ih => exact .enter dot up short (keep _ _ here (by simp)) ih
  | link dot up short here _ ih => exact .link dot up short (keep _ _ here (by simp)) ih

theorem mono {u : Tree} (h : Way t k p ns j q)
    (keep : ∀ r x, t.node? r = some x → u.node? r = some x) : Way u k p ns j q :=
  h.stays (fun r x hx _ => keep r x hx)

theorem le (h : Way t k p ns j q) : j ≤ k := by
  induction h with
  | done k p => exact Nat.le_refl k
  | dot _ ih | up _ ih | enter _ _ _ _ _ ih => exact ih
  | link _ _ _ _ _ ih => exact Nat.le_succ_of_le ih

theorem add (h : Way t k p ns j q) (i : Nat) : Way t (k + i) p ns (j + i) q := by
  induction h with
  | done k p => exact .done (k + i) p
  | dot _ ih => exact .dot ih
  | up _ ih => exact .up ih
  | enter dot up short here _ ih => exact .enter dot up short here ih
  | @link k j p q n target ns dot up short here _ ih =>
    rw [Nat.add_right_comm]
    exact .link dot up short here ih

theorem append {i : Nat} {r : Place} {ms : List String} (h : Way t k p ns j q)
    (hm : Way t j q ms i r) : Way t k p (ns ++ ms) i r := by
  induction h with
  | done k p => exact hm
  | dot _ ih => exact .dot (ih hm)
  | up _ ih => exact .up (ih hm)
  | enter dot up short here _ ih => exact .enter dot up short here (ih hm)
  | @link k j p q n target ns dot up short here _ ih =>
    have := ih hm
    rw [List.append_assoc] at this
    exact .link dot up short here this

theorem directory (h : Way t k p ns j q) (ht : t.Sound) (hp : t.node? p = some .directory) :
    t.node? q = some .directory := by
  induction h with
  | done k p => exact hp
  | dot _ ih => exact ih hp
  | up _ ih => exact ih (ht.dropLast hp)
  | enter _ _ _ here _ ih => exact ih here
  | link _ _ _ _ _ ih =>
    apply ih
    unfold startFrom
    split
    · rfl
    · exact hp

theorem unsnoc {n : String} (h : Way t k p (ns ++ [n]) k q) (hn : Proper n) :
    ∃ r, Way t k p ns k r ∧ q = r ++ [n] := by
  induction ns generalizing p with
  | nil =>
    cases h with
    | dot _ => exact absurd rfl hn.notDot
    | up _ => exact absurd rfl hn.notParent
    | enter _ _ _ _ more =>
      cases more
      exact ⟨p, .done k p, rfl⟩
    | link _ _ _ _ more =>
      have := more.le
      omega
  | cons m ns ih =>
    cases h with
    | dot more =>
      obtain ⟨r, hr, e⟩ := ih more
      exact ⟨r, .dot hr, e⟩
    | up more =>
      obtain ⟨r, hr, e⟩ := ih more
      exact ⟨r, .up hr, e⟩
    | enter dot up short here more =>
      obtain ⟨r, hr, e⟩ := ih more
      exact ⟨r, .enter dot up short here hr, e⟩
    | link _ _ _ _ more =>
      have := more.le
      omega

theorem names (ht : t.Sound) (k : Nat) (h : t.node? (p ++ ns) = some .directory) :
    Way t k p ns k (p ++ ns) := by
  induction ns generalizing p with
  | nil =>
    rw [List.append_nil]
    exact .done k p
  | cons n ns ih =>
    have split : p ++ n :: ns = p ++ [n] ++ ns := by simp
    have hn : n ∈ p ++ n :: ns := by simp
    have proper := ht.proper _ _ h n hn
    have here : t.node? (p ++ [n]) = some .directory := by
      by_cases hne : ns = []
      · rwa [hne] at h
      · rw [split] at h
        exact ht.directory_of_below h hne
    rw [split] at h ⊢
    exact .enter proper.notDot proper.notParent (ht.short _ _ h n (by simp)) here (ih h)

end Way

/-! ### Names below a directory -/

section Names

variable {t : Tree} {last : Bool} {k : Nat} {p : Place}

theorem follow_present (ht : t.Sound) {ns : List String} (hne : ns ≠ []) {x : Node}
    (hx : t.node? (p ++ ns) = some x) (hl : ∀ target, x ≠ .link target) :
    follow t last k p ns = .ok (.node (p ++ ns) x) := by
  obtain ⟨ms, n, rfl⟩ := List.eq_nil_or_concat ns |>.resolve_left hne
  rw [List.concat_eq_append, ← List.append_assoc] at *
  have way := Way.names ht k (ht.above _ _ _ hx)
  have proper : Proper n := (ht.proper _ _ hx).last
  have short : byteLength n ≤ nameLimit := ht.short _ _ hx n (by simp)
  rw [way.follow_append (Or.inr (by simp)), (isName_of_proper proper short).follow_cons, hx]
  cases x with
  | file content => rfl
  | directory => exact follow_nil _ _ _ _
  | link target => exact absurd rfl (hl target)

theorem follow_absent (ht : t.Sound) {ms : List String} {n : String}
    (hd : t.node? (p ++ ms) = some .directory) (hn : Proper n) (short : byteLength n ≤ nameLimit)
    (hx : t.node? (p ++ ms ++ [n]) = none) :
    follow t last k p (ms ++ [n]) = .ok (.absent (p ++ ms ++ [n])) := by
  rw [(Way.names ht k hd).follow_append (Or.inr (by simp)), (isName_of_proper hn short).follow_cons, hx]
  rfl

theorem Finds.unlinked {ns : List String} {r : Found} (h : Finds t last k p ns r) (hns : AllProper ns)
    (hp : t.node? p = some .directory)
    (unlinked : ∀ ms, ms <+: ns → ms ≠ [] → ∀ target, t.node? (p ++ ms) ≠ some (.link target)) :
    r.place = p ++ ns ∧ t.node? (p ++ ns) = r.node? := by
  induction h with
  | done k p =>
    rw [List.append_nil]
    exact ⟨rfl, hp⟩
  | dot _ _ => exact absurd rfl hns.head.notDot
  | up _ _ => exact absurd rfl hns.head.notParent
  | absent _ here | file _ here => exact ⟨rfl, here⟩
  | stop _ here _ => exact absurd here (unlinked _ (List.prefix_refl _) (by simp) _)
  | @link k p n _ ns _ _ here _ _ _ => exact absurd here (unlinked [n] (by simp) (by simp) _)
  | @enter k p n ns r _ here _ ih =>
    rw [List.append_cons]
    refine ih hns.tail here (fun ms hm _ target => ?_)
    rw [← List.append_cons]
    exact unlinked (n :: ms) (List.cons_prefix_cons.mpr ⟨rfl, hm⟩) (by simp) target

end Names

/-! ### Paths that lead to a directory -/

def Leads (d : Disk) (s : String) (p : Place) : Prop :=
  ∃ j, Way d.tree linkLimit (startFrom d.here s) (parts s) j p

theorem directory_startFrom {d : Disk} (hd : d.Sound) (s : String) :
    d.tree.node? (startFrom d.here s) = some .directory := by
  unfold startFrom
  split
  · rfl
  · exact hd.here

namespace Leads

variable {d : Disk} {s : String} {p : Place}

theorem root {r : String} (hr : r.toList.all isSlash = true) (hne : r ≠ "") : Leads d r [] := by
  have absolute : isAbsolute r = true := by
    obtain ⟨c, cs, hc⟩ := List.exists_cons_of_ne_nil (mt String.toList_eq_nil_iff.mp hne)
    rw [hc] at hr
    simp only [List.all_cons, isSlash, Bool.and_eq_true, decide_eq_true_eq] at hr
    simp [isAbsolute, hc, hr.1]
  have none : parts r = [] := by
    apply partsOf_slashes
    intro c hc
    simpa [isSlash] using List.all_eq_true.mp hr c hc
  rw [Leads, startFrom, if_pos absolute, none]
  exact ⟨linkLimit, .done _ _⟩

theorem directory (h : Leads d s p) (hd : d.Sound) : d.tree.node? p = some .directory := by
  obtain ⟨j, hj⟩ := h
  exact hj.directory hd.tree (directory_startFrom hd s)

theorem mono {e : Disk} (h : Leads d s p) (here : e.here = d.here)
    (keep : ∀ r x, d.tree.node? r = some x → e.tree.node? r = some x) : Leads e s p := by
  obtain ⟨j, hj⟩ := h
  exact ⟨j, here ▸ hj.mono keep⟩

theorem extended {ns : List String} (h : Leads d s p) (hd : d.Sound) (hns : AllProper ns)
    (hx : d.tree.node? (p ++ ns) = some .directory) : Leads d (extend s ns) (p ++ ns) := by
  obtain ⟨j, hj⟩ := h
  have same : startFrom d.here (Path.extend s ns) = startFrom d.here s := by
    rw [startFrom, startFrom, isAbsolute_extend hns]
  rw [Leads, same, parts_extend hns]
  exact ⟨j, hj.append (Way.names hd.tree j hx)⟩

theorem joined {n : String} (h : Leads d s p) (hd : d.Sound) (hn : Proper n)
    (hx : d.tree.node? (p ++ [n]) = some .directory) : Leads d (join s n) (p ++ [n]) := by
  have one : AllProper [n] := hn.single
  have := h.extended hd one hx
  rwa [extend_cons, extend_nil] at this

theorem follow_steps (h : Leads d s p) :
    follow d.tree true linkLimit (startFrom d.here s) (steps s) = .ok (.node p .directory) := by
  obtain ⟨j, hj⟩ := h
  unfold steps
  split
  · rw [hj.follow_append (Or.inl rfl), follow_cons, if_pos rfl, follow_nil]
  · exact hj.follow_eq

theorem find (h : Leads d s p) (hs : s ≠ "") (hf : Fits s) :
    d.find true s = .ok (.node p .directory) := by
  rw [Disk.find, if_neg hf.noNul, if_neg hs, if_neg (Nat.not_le.mpr hf.short), h.follow_steps]

theorem found (h : Leads d s p) {r : Found} (hr : d.find true s = .ok r) : r = .node p .directory := by
  rw [Disk.find] at hr
  split_ifs at hr
  rw [h.follow_steps] at hr
  exact (Except.ok.inj hr).symm

theorem follow_extend (h : Leads d s p) {ns : List String} (hns : AllProper ns) (hne : ns ≠ []) :
    ∃ j, ∀ last, follow d.tree last linkLimit (startFrom d.here (Path.extend s ns))
      (steps (Path.extend s ns)) = follow d.tree last j p ns := by
  obtain ⟨j, hj⟩ := h
  refine ⟨j, fun last => ?_⟩
  have named := named_extend (s := s) hns hne
  have same : startFrom d.here (Path.extend s ns) = startFrom d.here s := by
    rw [startFrom, startFrom, isAbsolute_extend hns]
  rw [same, steps, named.noFinalSlash, parts_extend hns]
  exact hj.follow_append (Or.inr hne)

theorem find_extend (h : Leads d s p) {ns : List String} (hns : AllProper ns) (hne : ns ≠ [])
    (hf : Fits (Path.extend s ns)) :
    ∃ j, ∀ last, d.find last (Path.extend s ns) = follow d.tree last j p ns := by
  obtain ⟨j, hj⟩ := h.follow_extend hns hne
  refine ⟨j, fun last => ?_⟩
  rw [Disk.find, if_neg hf.noNul, if_neg (named_extend hns hne).nonempty,
    if_neg (Nat.not_le.mpr hf.short), hj]

theorem find_present (h : Leads d s p) (hd : d.Sound) {ns : List String} (hne : ns ≠ [])
    (hf : Fits (Path.extend s ns)) {x : Node} (hx : d.tree.node? (p ++ ns) = some x)
    (hl : ∀ target, x ≠ .link target) (last : Bool) :
    d.find last (Path.extend s ns) = .ok (.node (p ++ ns) x) := by
  obtain ⟨j, hj⟩ := h.find_extend (hd.tree.proper _ _ hx).right hne hf
  rw [hj last, follow_present hd.tree hne hx hl]

theorem find_absent (h : Leads d s p) (hd : d.Sound) {ms : List String} {n : String}
    (hms : AllProper ms) (hn : Proper n) (hf : Fits (Path.extend s (ms ++ [n])))
    (hm : d.tree.node? (p ++ ms) = some .directory) (hx : d.tree.node? (p ++ ms ++ [n]) = none)
    (last : Bool) : d.find last (Path.extend s (ms ++ [n])) = .ok (.absent (p ++ ms ++ [n])) := by
  have hns : AllProper (ms ++ [n]) := hms.concat hn
  obtain ⟨j, hj⟩ := h.find_extend hns (by simp) hf
  rw [hj last, follow_absent hd.tree hm hn (hf.names hns n (by simp)) hx]

theorem find_directory (h : Leads d s p) {n : String} (hn : Proper n) (hf : Fits (join s n))
    (hx : d.tree.node? (p ++ [n]) = some .directory) (last : Bool) :
    d.find last (join s n) = .ok (.node (p ++ [n]) .directory) := by
  have one : AllProper [n] := hn.single
  have hj := h.find_extend one (by simp)
  rw [extend_cons, extend_nil] at hj
  obtain ⟨j, hj⟩ := hj hf
  have short := hf.shortNames n (by rw [parts_join hn]; simp)
  rw [hj last, (isName_of_proper hn short).follow_cons, hx]
  exact follow_nil _ _ _ _

theorem node_present (h : Leads d s p) (hd : d.Sound) {ns : List String} (hne : ns ≠ [])
    (hf : Fits (Path.extend s ns)) {x : Node} (hx : d.tree.node? (p ++ ns) = some x)
    (hl : ∀ target, x ≠ .link target) (last : Bool) : d.node last (Path.extend s ns) = .ok x := by
  rw [Disk.node, h.find_present hd hne hf hx hl last]

theorem isDirectory (h : Leads d s p) (hs : s ≠ "") (hf : Fits s) : d.isDirectory s = true := by
  rw [Disk.isDirectory, Disk.node, h.find hs hf]

theorem exists? (h : Leads d s p) (hs : s ≠ "") (hf : Fits s) : d.exists? s = true := by
  rw [Disk.exists?, Disk.node, h.find hs hf]

theorem not_exists? (h : Leads d s p) (hd : d.Sound) {ns : List String} (hns : AllProper ns)
    (hne : ns ≠ []) (hf : Fits (Path.extend s ns)) (hx : d.tree.node? (p ++ ns) = none)
    (unlinked : ∀ ms, ms <+: ns → ∀ target, d.tree.node? (p ++ ms) ≠ some (.link target)) :
    d.exists? (Path.extend s ns) = false := by
  have hp := h.directory hd
  obtain ⟨j, hj⟩ := h.find_extend hns hne hf
  rw [Disk.exists?, Disk.node, hj true]
  cases hfound : follow d.tree true j p ns with
  | error r => rfl
  | ok found =>
    cases found with
    | absent q => rfl
    | node q x =>
      have there := ((finds_of_follow hfound).unlinked hns hp (fun ms hm _ => unlinked ms hm)).2
      rw [hx] at there
      cases there

end Leads

/-! ### Paths that something is found by -/

theorem Finds.short {t : Tree} {last : Bool} {k : Nat} {p : Place} {ns : List String} {r : Found}
    (h : Finds t last k p ns r) : ∀ n ∈ ns, byteLength n ≤ nameLimit := by
  induction h with
  | done k p => simp
  | dot _ ih | up _ ih =>
    rw [List.forall_mem_cons]
    exact ⟨by decide, ih⟩
  | absent name _ | file name _ | stop name _ _ => simpa using name.short
  | enter name _ _ ih =>
    rw [List.forall_mem_cons]
    exact ⟨name.short, ih⟩
  | link name _ _ _ ih =>
    rw [List.forall_mem_cons]
    exact ⟨name.short, fun m hm => ih m (List.mem_append_right _ hm)⟩

theorem Fits.of_find {d : Disk} {last : Bool} {s : String} {r : Found} (h : d.find last s = .ok r) :
    Fits s := by
  rw [Disk.find] at h
  split_ifs at h with nul empty long
  refine ⟨nul, Nat.not_le.mp long, fun n hn => (finds_of_follow h).short n ?_⟩
  unfold steps
  split
  · exact List.mem_append_left _ hn
  · exact hn

theorem found_of_isDirectory {d : Disk} {s : String} (h : d.isDirectory s = true) :
    ∃ place, d.find true s = .ok (.node place .directory) := by
  unfold Disk.isDirectory Disk.node at h
  cases found : d.find true s with
  | error r =>
    rw [found] at h
    cases h
  | ok r =>
    rw [found] at h
    cases r with
    | absent p => cases h
    | node p x =>
      cases x with
      | directory => exact ⟨p, rfl⟩
      | file content => cases h
      | link target => cases h

/-! ### Listings -/

theorem Leads.countsAsDirectory_eq {d : Disk} {s : String} {p : Place} (h : Leads d s p) (hd : d.Sound)
    {n : String} {x : Node} (hx : d.tree.node? (p ++ [n]) = some x)
    (fits : x = .directory → Fits (join s n)) :
    d.countsAsDirectory s p n = d.isDirectory (join s n) := by
  rw [Disk.countsAsDirectory, hx]
  cases x with
  | directory =>
    rw [Disk.isDirectory, Disk.node, h.find_directory (hd.tree.proper _ _ hx).last (fits rfl) hx]
  | link target => rfl
  | file content =>
    symm
    rw [Bool.eq_false_iff]
    intro there
    obtain ⟨q, found⟩ := found_of_isDirectory there
    have present := h.find_present hd (List.cons_ne_nil n []) (Fits.of_find found) hx (by simp) true
    rw [extend_cons, extend_nil, found] at present
    cases present

/-- Two disks list the same if a path finds the same on both, and a directory that it finds has the same
entries, each of them counted alike. -/
theorem list_congr {d e : Disk} {s : String} (found : d.find true s = e.find true s)
    (same : ∀ p, e.find true s = .ok (.node p .directory) → d.tree.names p = e.tree.names p ∧
      ∀ n ∈ e.tree.names p, d.countsAsDirectory s p n = e.countsAsDirectory s p n) :
    d.list s = e.list s := by
  rw [Disk.list, Disk.list, found]
  split
  · next p there =>
    obtain ⟨names, counts⟩ := same p there
    have others : ∀ n ∈ e.tree.names p,
        (not ∘ d.countsAsDirectory s p) n = (not ∘ e.countsAsDirectory s p) n := by
      intro n hn
      rw [Function.comp, Function.comp, counts n hn]
    rw [names, List.partition_eq_filter_filter, List.partition_eq_filter_filter, List.filter_congr counts,
      List.filter_congr others]
  · rfl

def Unlinked (t : Tree) (p : Place) : Prop := ∀ q target, t.node? (p ++ q) ≠ some (.link target)

def isDirectoryAt (t : Tree) (p : Place) : Bool := decide (t.node? p = some .directory)

theorem list_eq {d : Disk} {s : String} {p : Place} (h : Leads d s p) (hs : s ≠ "") (hf : Fits s)
    (unlinked : Unlinked d.tree p) :
    d.list s = (d.tree.names p).partition (fun n => isDirectoryAt d.tree (p ++ [n])) := by
  have same : d.countsAsDirectory s p = fun n => isDirectoryAt d.tree (p ++ [n]) := by
    funext n
    rw [Disk.countsAsDirectory, isDirectoryAt]
    cases hx : d.tree.node? (p ++ [n]) with
    | none => rfl
    | some x =>
      cases x with
      | file content => rfl
      | directory => rfl
      | link target => exact absurd hx (unlinked [n] target)
  rw [Disk.list, h.find hs hf]
  dsimp only
  rw [same]

end SqlMigration.Files
