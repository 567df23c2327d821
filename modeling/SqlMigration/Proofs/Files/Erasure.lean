import SqlMigration.Proofs.Files.Setting

/-!
# What a removal leaves

A removal that succeeds has taken away the entry that its path names with all
below it, and nothing else. A link is an entry of its own, and what it stands for
stays. Afterwards the path leads to nothing.
-/

set_option autoImplicit false

namespace SqlMigration.Files

open SqlMigration.Path Effect

/-! ### The entry at the end of a path -/

section Finds

variable {t : Tree} {k : Nat} {p q : Place} {ns : List String}

theorem Finds.exists_entry {x : Node} (h : Finds t true k p ns (.node q x)) :
    ∃ r y, Finds t false k p ns (.node r y) := by
  generalize result : Found.node q x = f at h
  induction h with
  | done k p => exact ⟨p, .directory, .done k p⟩
  | dot _ ih =>
    obtain ⟨r, y, more⟩ := ih result
    exact ⟨r, y, .dot more⟩
  | up _ ih =>
    obtain ⟨r, y, more⟩ := ih result
    exact ⟨r, y, .up more⟩
  | absent _ _ => cases result
  | file name here => exact ⟨_, _, .file name here⟩
  | enter name here _ ih =>
    obtain ⟨r, y, more⟩ := ih result
    exact ⟨r, y, .enter name here more⟩
  | stop _ _ still => cases still
  | @link k p n target ns f name here _ _ ih =>
    by_cases final : ns = []
    · subst final
      exact ⟨_, _, .stop name here rfl⟩
    · obtain ⟨r, y, more⟩ := ih result
      exact ⟨r, y, .link name here (by simp [final]) more⟩

theorem Finds.follow_directory (h : Finds t false k p ns (.node q .directory)) :
    Finds t true k p ns (.node q .directory) := by
  generalize result : Found.node q .directory = f at h ⊢
  induction h with
  | done k p => exact .done k p
  | dot _ ih => exact .dot (ih result)
  | up _ ih => exact .up (ih result)
  | absent _ _ | file _ _ | stop _ _ _ => cases result
  | enter name here _ ih => exact .enter name here (ih result)
  | link name here _ _ ih => exact .link name here (by simp) (ih result)

theorem Finds.leaf_there {last : Bool} {x : Node} (h : Finds t last k p ns (.node q x))
    (leaf : x ≠ .directory) : q ≠ [] ∧ t.node? q = some x := by
  generalize result : Found.node q x = f at h
  induction h with
  | done _ _ =>
    cases result
    exact absurd rfl leaf
  | absent _ _ => cases result
  | file _ here | stop _ here _ =>
    cases result
    exact ⟨Tree.concat_ne_nil _ _, here⟩
  | dot _ ih | up _ ih | enter _ _ _ ih | link _ _ _ _ ih => exact ih result

/-- What is found under a name at the end of the parts is there. A parent step at the end may lead to
a place where nothing is any more. -/
theorem Finds.named_there {n : String} {x : Node} (h : Finds t false k p ns (.node q x))
    (final : ns.getLast? = some n) (dot : n ≠ ".") (up : n ≠ "..") : q ≠ [] ∧ t.node? q = some x := by
  generalize result : Found.node q x = f at h
  have later : ∀ {m : String} {ms : List String}, (m :: ms).getLast? = some n → ms ≠ [] →
      ms.getLast? = some n := by
    intro m ms final more
    obtain ⟨l, ls, rfl⟩ := List.exists_cons_of_ne_nil more
    rwa [List.getLast?_cons_cons] at final
  induction h with
  | done _ _ => cases final
  | @dot _ _ ms _ _ ih =>
    by_cases more : ms = []
    · subst more
      exact absurd (Option.some.inj final).symm dot
    · exact ih (later final more) result
  | @up _ _ ms _ _ ih =>
    by_cases more : ms = []
    · subst more
      exact absurd (Option.some.inj final).symm up
    · exact ih (later final more) result
  | absent _ _ => cases result
  | file _ here | stop _ here _ =>
    cases result
    exact ⟨Tree.concat_ne_nil _ _, here⟩
  | @enter _ _ _ ms _ _ here rest ih =>
    by_cases more : ms = []
    · subst more
      cases rest
      cases result
      exact ⟨Tree.concat_ne_nil _ _, here⟩
    · exact ih (later final more) result
  | @link _ _ _ target ms _ _ _ go _ ih =>
    have more : ms ≠ [] := by
      rintro rfl
      cases go
    refine ih ?_ result
    rw [List.getLast?_append_of_ne_nil _ more]
    exact later final more

/-- What a lookup in a tree passes on its way to something is there. That goes for all trees in which
the lookup takes the same way. -/
theorem Finds.passed_there {u : Tree} {x : Node} (h : Finds t true k p ns (.node q x))
    (keep : ∀ r y, t.node? r = some y → u.node? r = some y) :
    ∀ r ∈ passed u k p ns, t.node? r ≠ none := by
  generalize result : Found.node q x = f at h
  induction h with
  | done k p => cases k <;> simp [passed, passedFrom]
  | dot _ ih =>
    rw [passed_cons, if_pos rfl]
    exact ih result
  | up _ ih =>
    rw [passed_cons, if_neg (by decide), if_pos rfl]
    exact ih result
  | absent _ _ => cases result
  | file name here =>
    rw [passed_cons, if_neg name.notDot, if_neg name.notParent, keep _ _ here]
    simp [here]
  | enter name here _ ih =>
    rw [passed_cons, if_neg name.notDot, if_neg name.notParent, keep _ _ here]
    exact List.forall_mem_cons.mpr ⟨by simp [here], ih result⟩
  | stop _ _ still => cases still
  | link name here _ _ ih =>
    rw [passed_cons, if_neg name.notDot, if_neg name.notParent, keep _ _ here]
    exact List.forall_mem_cons.mpr ⟨by simp [here], ih result⟩

end Finds

theorem finds_of_find {d : Disk} {last : Bool} {path : String} {f : Found}
    (h : d.find last path = .ok f) :
    Finds d.tree last linkLimit (startFrom d.here path) (steps path) f := by
  rw [Disk.find] at h
  split_ifs at h
  exact finds_of_follow h

theorem find_of_finds {d : Disk} {last last' : Bool} {path : String} {f f' : Found}
    (h : d.find last path = .ok f)
    (found : Finds d.tree last' linkLimit (startFrom d.here path) (steps path) f') :
    d.find last' path = .ok f' := by
  rw [Disk.find] at h ⊢
  split_ifs at h ⊢
  exact found.follow_eq

theorem exists?_iff {d : Disk} {path : String} :
    d.exists? path = true ↔ ∃ p x, d.find true path = .ok (.node p x) := by
  unfold Disk.exists? Disk.node
  cases d.find true path with
  | error r => simp
  | ok f => cases f <;> simp

theorem exists_entry {d : Disk} {path : String} (h : d.exists? path = true) :
    ∃ p x, d.find false path = .ok (.node p x) := by
  obtain ⟨p, x, found⟩ := exists?_iff.mp h
  obtain ⟨q, y, entry⟩ := (finds_of_find found).exists_entry
  exact ⟨q, y, find_of_finds found entry⟩

theorem find_directory {d : Disk} {path : String} {p : Place}
    (h : d.find false path = .ok (.node p .directory)) : d.find true path = .ok (.node p .directory) :=
  find_of_finds h (finds_of_find h).follow_directory

/-- The path of an entry: its last part is a name. -/
structure EndsInName (path : String) : Prop where
  named : Named path
  notDot : name path ≠ "."
  notParent : name path ≠ ".."

instance (path : String) : Decidable (EndsInName path) :=
  decidable_of_iff (Named path ∧ name path ≠ "." ∧ name path ≠ "..")
    ⟨fun ⟨a, b, c⟩ => ⟨a, b, c⟩, fun ⟨a, b, c⟩ => ⟨a, b, c⟩⟩

theorem EndsInName.getLast?_steps {path : String} (h : EndsInName path) :
    (steps path).getLast? = some (name path) := by
  have nonempty : name path ≠ "" := by
    intro empty
    obtain ⟨front, whole, _, last, _⟩ := split_spec path
    rw [empty, String.toList_empty, List.append_nil] at whole
    rcases last with none | slash
    · rw [none] at whole
      exact h.named.nonempty (String.toList_eq_nil_iff.mp whole)
    · have final := h.named.noFinalSlash
      rw [endsWithSlash, whole] at final
      simp [slash] at final
  rw [steps, h.named.noFinalSlash, if_neg Bool.false_ne_true, parts_parent, parts_name, if_neg nonempty,
    List.getLast?_concat]

theorem entry_there {d : Disk} {path : String} {p : Place} {x : Node}
    (found : d.find false path = .ok (.node p x)) (sure : x ≠ .directory ∨ EndsInName path) :
    p ≠ [] ∧ d.tree.node? p = some x := by
  rcases sure with leaf | ends
  · exact (finds_of_find found).leaf_there leaf
  · exact (finds_of_find found).named_there ends.getLast?_steps ends.notDot ends.notParent

theorem Pruned.not_exists? {d e : Disk} {lost : Place → Prop} (h : Pruned d e lost) {path : String}
    {p : Place} {x : Node} (found : d.find false path = .ok (.node p x))
    (sure : x ≠ .directory ∨ EndsInName path) (gone : e.tree.node? p = none) :
    e.exists? path = false := by
  rw [Bool.eq_false_iff]
  intro there
  obtain ⟨q, y, entry⟩ := exists_entry there
  have same := Disk.find_mono h.here.symm (fun _ _ => h.keep) entry
  rw [found] at same
  cases same
  rw [(entry_there entry sure).2] at gone
  cases gone

/-! ### Removals that succeed -/

/-- The second disk is the first one without the entry that the path names and all below it. -/
structure Erased (d e : Disk) (path : String) : Prop where
  here : e.here = d.here
  rest : ∀ q, ¬ Covers d path q → e.tree.node? q = d.tree.node? q
  gone : d.tree.Sound → ∀ q, Covers d path q → e.tree.node? q = none

theorem Pruned.erased {d e : Disk} {path : String} (h : Pruned d e (Covers d path))
    (gone : d.tree.Sound → ∀ q, Covers d path q → e.tree.node? q = none) : Erased d e path where
  here := h.here
  rest q apart := (h.rest q).resolve_right (fun lost => apart lost.2)
  gone := gone

theorem covers_iff {d : Disk} {path : String} {p : Place} {x : Node}
    (found : d.find false path = .ok (.node p x)) {q : Place} : Covers d path q ↔ p <+: q := by
  have entry := entry?_eq_some.mpr ⟨x, found⟩
  rw [Covers, entry]
  simp

theorem ne_nil_of_below {p q : Place} (hp : p ≠ []) (hq : p <+: q) : q ≠ [] := by
  rintro rfl
  exact hp (List.prefix_nil.mp hq)

theorem node?_without_below (t : Tree) {p q : Place} (hp : p ≠ []) (hq : p <+: q) :
    (without t p).node? q = none := by
  rw [without, Tree.node?_remove _ (ne_nil_of_below hp hq)]
  by_cases same : q = p
  · exact if_pos same
  · rw [if_neg same, Tree.node?_clear, if_pos (Tree.isBelow_iff.mpr ⟨hq, Ne.symm same⟩)]

section Succeeded

variable {d e : Disk} {path : String}

theorem removeDirectory_inv (h : removeDirectory path d = .ok () e) :
    (name (bare path) ≠ "." ∧ name (bare path) ≠ "..") ∧
      ∃ p, d.find false path = .ok (.node p .directory) ∧ p ≠ [] ∧
        e = { d with tree := d.tree.remove p } := by
  unfold removeDirectory at h
  dsimp only at h
  by_cases dots : name (bare path) = "." ∨ name (bare path) = ".."
  · rw [if_pos dots] at h
    split at h
    · obtain ⟨_, _, _, refused⟩ := ok_of_bind h
      cases refused
    · cases h
  · rw [if_neg dots, bind_ok (get_apply d)] at h
    refine ⟨not_or.mp dots, ?_⟩
    cases found : d.find false path with
    | error r =>
      rw [found] at h
      cases h
    | ok f =>
      rw [found] at h
      cases f with
      | absent p => cases h
      | node p x =>
        cases x with
        | file content => cases h
        | link target => cases h
        | directory =>
          change (if p = [] then refuse .busy path else change (·.remove p) : Action Unit) d = _ at h
          split at h
          · cases h
          · next hp =>
            cases h
            exact ⟨p, rfl, hp, rfl⟩

/-- The lookups before and after the directory has been emptied take the same way to the same place,
which does not lead through what the directory held. -/
theorem removeTree_inv (h : removeTree path d = .ok () e) :
    (name (bare path) ≠ "." ∧ name (bare path) ≠ "..") ∧
      ∃ p, d.find false path = .ok (.node p .directory) ∧ p ≠ [] ∧
        (∀ q ∈ d.passed path, Tree.isBelow p q = false) ∧
        e = { d with tree := without d.tree p } := by
  unfold removeTree at h
  rw [bind_ok (get_apply d)] at h
  cases found : d.find false path with
  | error r =>
    rw [found] at h
    cases h
  | ok f =>
    have looked : orRefuse path (Except.ok f) d = .ok f d := rfl
    rw [found, bind_ok looked] at h
    cases f with
    | absent p => cases h
    | node p x =>
      cases x with
      | file content => cases h
      | link target =>
        obtain ⟨_, _, _, refused⟩ := ok_of_bind h
        cases refused
      | directory =>
        have emptied : Pruned d { d with tree := d.tree.clear p } (fun q => p <+: q) :=
          ⟨rfl, node?_clear_cases d.tree p⟩
        have cleared : change (·.clear p) d = .ok () { d with tree := d.tree.clear p } := rfl
        dsimp only at h
        rw [bind_ok cleared] at h
        obtain ⟨names, q, again, hq, rfl⟩ := removeDirectory_inv h
        have same := Disk.find_mono emptied.here.symm (fun _ _ => emptied.keep) again
        rw [found] at same
        cases same
        refine ⟨names, p, rfl, hq, fun r passed => ?_, rfl⟩
        have left := (finds_of_find (find_directory again)).passed_there (fun _ _ => emptied.keep) r passed
        rw [Tree.node?_clear] at left
        cases below : Tree.isBelow p r with
        | false => rfl
        | true => exact absurd (if_pos below) left

theorem unlink_inv (h : unlink path d = .ok () e) :
    ∃ p x, d.find false path = .ok (.node p x) ∧ x ≠ .directory ∧
      e = { d with tree := d.tree.remove p } := by
  unfold unlink at h
  rw [bind_ok (get_apply d)] at h
  cases found : d.find false path with
  | error r =>
    rw [found] at h
    cases h
  | ok f =>
    rw [found] at h
    cases f with
    | absent p => cases h
    | node p x =>
      cases x with
      | directory => cases h
      | file content =>
        cases h
        exact ⟨p, _, rfl, by simp, rfl⟩
      | link target =>
        cases h
        exact ⟨p, _, rfl, by simp, rfl⟩

theorem pruned_removeTree (h : removeTree path d = .ok () e) : Pruned d e (Covers d path) :=
  (keeps_removeTree (fun _ covered => covered)).of_ok (Pruned.refl d _) h

theorem pruned_unlink (h : unlink path d = .ok () e) : Pruned d e (Covers d path) :=
  (keeps_unlink (fun _ covered => covered)).of_ok (Pruned.refl d _) h

theorem erased_removeTree (h : removeTree path d = .ok () e) : Erased d e path := by
  obtain ⟨_, p, found, hp, _, rfl⟩ := removeTree_inv h
  exact (pruned_removeTree h).erased
    (fun _ q covered => node?_without_below d.tree hp ((covers_iff found).mp covered))

theorem erased_unlink (h : unlink path d = .ok () e) : Erased d e path := by
  obtain ⟨p, x, found, leaf, rfl⟩ := unlink_inv h
  refine (pruned_unlink h).erased (fun sound q covered => ?_)
  have below := (covers_iff found).mp covered
  obtain ⟨hp, there⟩ := entry_there found (Or.inl leaf)
  change (d.tree.remove p).node? q = none
  rw [Tree.node?_remove _ (ne_nil_of_below hp below)]
  by_cases same : q = p
  · exact if_pos same
  · rw [if_neg same]
    exact sound.none_below (by rw [there]; simpa using leaf) below (Ne.symm same)

theorem not_exists?_removeTree (h : removeTree path d = .ok () e) (named : Named path) :
    e.exists? path = false := by
  obtain ⟨⟨dot, up⟩, p, found, hp, _, rfl⟩ := removeTree_inv h
  rw [bare_named named] at dot up
  exact (pruned_removeTree h).not_exists? found (Or.inr ⟨named, dot, up⟩)
    (node?_without_below d.tree hp (List.prefix_refl p))

theorem not_exists?_unlink (h : unlink path d = .ok () e) : e.exists? path = false := by
  obtain ⟨p, x, found, leaf, rfl⟩ := unlink_inv h
  refine (pruned_unlink h).not_exists? found (Or.inl leaf) ?_
  change (d.tree.remove p).node? p = none
  rw [Tree.node?_remove _ (entry_there found (Or.inl leaf)).1, if_pos rfl]

end Succeeded

/-! ### When they succeed -/

theorem unlink_found {d : Disk} {path : String} {p : Place} {x : Node}
    (found : d.find false path = .ok (.node p x)) (leaf : x ≠ .directory) :
    unlink path d = .ok () { d with tree := d.tree.remove p } := by
  unfold unlink
  rw [bind_ok (get_apply d), found]
  cases x with
  | directory => exact absurd rfl leaf
  | file content => rfl
  | link target => rfl

theorem removeTree_apart {d : Disk} {path : String} {p : Place}
    (found : d.find false path = .ok (.node p .directory)) (ends : EndsInName path)
    (apart : ∀ q ∈ d.passed path, Tree.isBelow p q = false) :
    removeTree path d = .ok () { d with tree := without d.tree p } := by
  have again : Disk.find { d with tree := d.tree.clear p } false path = .ok (.node p .directory) := by
    rw [← found]
    refine Disk.find_congr (d := d) (e := { d with tree := d.tree.clear p }) rfl false (fun q hq => ?_)
    change (d.tree.clear p).node? q = d.tree.node? q
    rw [Tree.node?_clear, apart q hq, if_neg Bool.false_ne_true]
  refine removeTree_found (entry_there found (Or.inr ends)).1 ?_ found again
  rw [bare_named ends.named]
  exact not_or.mpr ⟨ends.notDot, ends.notParent⟩

end SqlMigration.Files
