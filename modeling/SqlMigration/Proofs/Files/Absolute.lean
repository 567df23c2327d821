import SqlMigration.Proofs.Files.Lookup

/-!
# Absolute paths

The absolute form of a path is made from its text alone: dots are dropped and
parent steps taken back. It names the place that the path leads to as long as no
link stands on the way.
-/

set_option autoImplicit false

namespace SqlMigration.Files

open SqlMigration.Path

/-- The place that names lead to by the text alone. -/
def formal : Place → List String → Place
  | p, [] => p
  | p, n :: ns =>
    if n = "." then formal p ns
    else if n = ".." then formal p.dropLast ns
    else formal (p ++ [n]) ns

theorem formal_append (p : Place) (ms ns : List String) :
    formal p (ms ++ ns) = formal (formal p ms) ns := by
  induction ms generalizing p with
  | nil => rfl
  | cons m ms ih =>
    simp only [List.cons_append, formal]
    split_ifs <;> exact ih _

theorem formal_names {p : Place} {ns : List String} (h : AllProper ns) : formal p ns = p ++ ns := by
  induction ns generalizing p with
  | nil => simp [formal]
  | cons n ns ih =>
    rw [formal, if_neg h.head.notDot, if_neg h.head.notParent, ih h.tail]
    simp

theorem formal_eq_append {p : Place} {ns : List String} (h : ".." ∉ ns) :
    formal p ns = p ++ ns.filter (fun n => n ≠ ".") := by
  induction ns generalizing p with
  | nil => simp [formal]
  | cons n ns ih =>
    rw [List.mem_cons, not_or] at h
    rw [formal]
    by_cases dot : n = "."
    · rw [if_pos dot, ih h.2, List.filter_cons_of_neg (by simp [dot])]
    · rw [if_neg dot, if_neg (fun e => h.1 e.symm), ih h.2, List.filter_cons_of_pos (by simp [dot])]
      simp

theorem mem_formal {p : Place} {ns : List String} {n : String} (h : n ∈ formal p ns) :
    n ∈ p ∨ (n ∈ ns ∧ n ≠ "." ∧ n ≠ "..") := by
  induction ns generalizing p with
  | nil => exact Or.inl h
  | cons m ns ih =>
    rw [formal] at h
    split_ifs at h with dot up
    · exact (ih h).imp id (fun ⟨hm, hn⟩ => ⟨List.mem_cons_of_mem _ hm, hn⟩)
    · exact (ih h).imp (List.dropLast_subset p ·) (fun ⟨hm, hn⟩ => ⟨List.mem_cons_of_mem _ hm, hn⟩)
    · rcases ih h with hp | ⟨hm, hn⟩
      · rcases List.mem_append.mp hp with hp | hp
        · exact Or.inl hp
        · rw [List.mem_singleton] at hp
          exact Or.inr ⟨hp ▸ List.mem_cons_self, hp ▸ dot, hp ▸ up⟩
      · exact Or.inr ⟨List.mem_cons_of_mem _ hm, hn⟩

theorem collapse_eq {stack ns : List String} (h : ∀ m ∈ stack, m ≠ "..") :
    collapse true stack ns = formal stack.reverse ns := by
  induction ns generalizing stack with
  | nil => rfl
  | cons n ns ih =>
    rw [collapse.eq_def, formal]
    dsimp only
    by_cases dot : n = "."
    · rw [if_pos dot, if_pos dot]
      exact ih h
    by_cases up : n = ".."
    · rw [if_neg dot, if_pos up, if_neg dot, if_pos up]
      cases stack with
      | nil => exact ih h
      | cons top below =>
        dsimp only
        rw [if_neg (h top List.mem_cons_self), ih (fun m hm => h m (List.mem_cons_of_mem _ hm)),
          List.reverse_cons, List.dropLast_concat]
    · rw [if_neg dot, if_neg up, if_neg dot, if_neg up, ← List.reverse_cons]
      apply ih
      intro m hm
      rcases List.mem_cons.mp hm with rfl | hm
      · exact up
      · exact h m hm

/-- A way that spends no links ends where the text says. -/
theorem Way.formal_eq {t : Tree} {k j : Nat} {p q : Place} {ns : List String}
    (h : Way t k p ns j q) (plain : j = k) : q = formal p ns := by
  induction h with
  | done k p => rfl
  | dot _ ih => rw [formal, if_pos rfl, ih plain]
  | up _ ih => rw [formal, if_neg (by decide), if_pos rfl, ih plain]
  | enter dot up _ _ _ ih => rw [formal, if_neg dot, if_neg up, ih plain]
  | link _ _ _ _ more _ =>
    have := more.le
    omega

/-! ### The text of the absolute form -/

def IsRoot (r : String) : Prop := r = "/" ∨ r = "//"

theorem IsRoot.all_slash {r : String} (h : IsRoot r) : r.toList.all isSlash = true := by
  rcases h with rfl | rfl <;> rfl

theorem IsRoot.trimmed {r : String} (h : IsRoot r) : Trimmed r := Or.inl h.all_slash

theorem IsRoot.ne_empty {r : String} (h : IsRoot r) : r ≠ "" := by
  rcases h with rfl | rfl <;> decide

theorem IsRoot.noNul {r : String} (h : IsRoot r) : '\x00' ∉ r.toList := by
  rcases h with rfl | rfl <;> decide

theorem IsRoot.isAbsolute {r : String} (h : IsRoot r) : isAbsolute r = true := by
  rcases h with rfl | rfl <;> decide

theorem IsRoot.parts {r : String} (h : IsRoot r) : parts r = [] := by
  rcases h with rfl | rfl <;> decide

theorem IsRoot.leads {r : String} (h : IsRoot r) (d : Disk) : Leads d r [] :=
  Leads.root h.all_slash h.ne_empty

theorem isRoot_root {s : String} (h : isAbsolute s = true) : IsRoot (root s) := by
  simp only [isAbsolute, decide_eq_true_eq] at h
  obtain ⟨cs, hc⟩ := List.head?_eq_some_iff.mp h
  rw [root, hc]
  have first : (List.takeWhile isSlash ('/' :: cs)).length ≠ 0 := by simp [isSlash]
  split
  · contradiction
  · exact Or.inr rfl
  · exact Or.inl rfl

theorem ofParts_root {r : String} (hr : IsRoot r) {ns : List String} (h : AllProper ns) :
    ofParts r ns = extend r ns := by
  change r ++ joined ns = _
  by_cases hne : ns = []
  · subst hne
    simp
  · rw [← join_joined h hne, join, not_isAbsolute_joined h]
    rcases hr with rfl | rfl <;> rfl

theorem parts_nonempty {s n : String} (h : n ∈ parts s) : n ≠ "" := by
  obtain ⟨t, ht, rfl⟩ := List.mem_map.mp h
  have hne := (List.mem_filter.mp ht).2
  intro e
  rw [← String.toList_eq_nil_iff, String.toList_ofList] at e
  simp [e] at hne

theorem mem_of_mem_splitOn {l t : List Char} {c : Char} (h : t ∈ l.splitOn '/') (hc : c ∈ t) :
    c ∈ l := by
  induction l generalizing t with
  | nil => simp_all
  | cons a l ih =>
    rw [List.splitOn_cons_eq_if_modifyHead] at h
    split at h
    · rcases List.mem_cons.mp h with rfl | h
      · cases hc
      · exact List.mem_cons_of_mem _ (ih h hc)
    · obtain ⟨u, us, hu⟩ := List.exists_cons_of_ne_nil (List.splitOn_ne_nil '/' l)
      rw [hu, List.modifyHead_cons] at h
      rcases List.mem_cons.mp h with rfl | h
      · rcases List.mem_cons.mp hc with rfl | hc
        · exact List.mem_cons_self
        · exact List.mem_cons_of_mem _ (ih (by rw [hu]; exact List.mem_cons_self) hc)
      · exact List.mem_cons_of_mem _ (ih (by rw [hu]; exact List.mem_cons_of_mem _ h) hc)

theorem proper_of_mem_parts {s n : String} (hs : '\x00' ∉ s.toList) (h : n ∈ parts s)
    (dot : n ≠ ".") (up : n ≠ "..") : Proper n where
  nonempty := parts_nonempty h
  noSlash := parts_noSlash h
  noNul := by
    obtain ⟨t, ht, rfl⟩ := List.mem_map.mp h
    rw [String.toList_ofList]
    exact fun hc => hs (mem_of_mem_splitOn (List.mem_filter.mp ht).1 hc)
  notDot := dot
  notParent := up

def formalPlace (here : Place) (s : String) : Place := formal (startFrom here s) (parts s)

theorem formalPlace_extend (here : Place) (s : String) {ns : List String} (h : AllProper ns) :
    formalPlace here (extend s ns) = formalPlace here s ++ ns := by
  rw [formalPlace, parts_extend h, startFrom, isAbsolute_extend h, formal_append, formal_names h]
  rfl

theorem allProper_way {here : Place} {s : String} (proper : AllProper here) (hs : '\x00' ∉ s.toList)
    {ms : List String} (hm : ms <+: parts s) : AllProper (formal (startFrom here s) ms) := by
  intro n hn
  rcases mem_formal hn with h | ⟨h, dot, up⟩
  · unfold startFrom at h
    split at h
    · cases h
    · exact proper n h
  · exact proper_of_mem_parts hs (hm.subset h) dot up

theorem allProper_formalPlace {here : Place} {s : String} (proper : AllProper here)
    (hs : '\x00' ∉ s.toList) : AllProper (formalPlace here s) :=
  allProper_way proper hs (List.prefix_refl _)

theorem normalize_of_absolute {s : String} (habs : isAbsolute s = true) :
    normalize s = ofParts (root s) (formal [] (parts s)) := by
  have hne : ofParts (root s) (formal [] (parts s)) ≠ "" := fun empty =>
    (isRoot_root habs).ne_empty (String.append_eq_empty_iff.mp empty).1
  rw [Path.normalize, habs, collapse_eq (by simp), List.reverse_nil]
  exact if_neg hne

theorem absolute_eq_normalize (d : Disk) (s : String) :
    ∃ u, isAbsolute u = true ∧ d.absolute s = normalize u := by
  by_cases habs : isAbsolute s = true
  · exact ⟨s, habs, by rw [Disk.absolute, if_pos habs]⟩
  · refine ⟨join (Disk.pathOf d.here) s, ?_, by rw [Disk.absolute, if_neg habs]⟩
    rw [isAbsolute_join_relative (by simpa using habs)]
    simp [Disk.pathOf, ofParts, isAbsolute]

theorem named_ofParts (r : String) {ns : List String} (hne : ns ≠ [])
    (h : ∀ n ∈ ns, n ≠ "" ∧ '/' ∉ n.toList) : Named (ofParts r ns) := by
  obtain ⟨ms, n, rfl⟩ := List.eq_nil_or_concat ns |>.resolve_left hne
  rw [List.concat_eq_append] at h ⊢
  obtain ⟨nonempty, noSlash⟩ := h n (by simp)
  have chars : n.toList ≠ [] := mt String.toList_eq_nil_iff.mp nonempty
  obtain ⟨front, whole⟩ : ∃ front, (ofParts r (ms ++ [n])).toList = front ++ n.toList := by
    change ∃ front, (r ++ joined (ms ++ [n])).toList = _
    by_cases first : ms = []
    · subst first
      exact ⟨r.toList, by simp [joined]⟩
    · exact ⟨(r ++ joined ms ++ "/").toList, by rw [joined_concat first]; simp⟩
  constructor
  · intro empty
    rw [empty] at whole
    exact chars (List.append_eq_nil_iff.mp whole.symm).2
  · simp only [endsWithSlash, whole, decide_eq_false_iff_not]
    rw [List.getLast?_append_of_ne_nil _ chars]
    exact fun last => noSlash (List.mem_of_getLast? last)

theorem named_absolute {d : Disk} {s : String} (h : ¬ IsRoot (d.absolute s)) : Named (d.absolute s) := by
  obtain ⟨u, habs, same⟩ := absolute_eq_normalize d s
  rw [same, normalize_of_absolute habs] at h ⊢
  refine named_ofParts _ (fun none => h ?_) (fun n hn => ?_)
  · rw [none]
    simpa [ofParts] using isRoot_root habs
  · obtain ⟨part, _, _⟩ := (mem_formal hn).resolve_left List.not_mem_nil
    exact ⟨parts_nonempty part, parts_noSlash part⟩

theorem absolute_eq {d : Disk} {s : String} (here : AllProper d.here) (hs : '\x00' ∉ s.toList) :
    ∃ r, IsRoot r ∧ d.absolute s = extend r (formalPlace d.here s) := by
  have finish : ∀ u : String, isAbsolute u = true → formal [] (parts u) = formalPlace d.here s →
      ∃ r, IsRoot r ∧ normalize u = extend r (formalPlace d.here s) := by
    intro u habs hplace
    have hr := isRoot_root habs
    refine ⟨root u, hr, ?_⟩
    rw [normalize_of_absolute habs, hplace, ofParts_root hr (allProper_formalPlace here hs)]
  rw [Disk.absolute]
  by_cases habs : isAbsolute s = true
  · rw [if_pos habs]
    exact finish s habs (by rw [formalPlace, startFrom, if_pos habs])
  · have hrel : isAbsolute s = false := by simpa using habs
    have hroot : Disk.pathOf d.here = extend "/" d.here := ofParts_root (Or.inl rfl) here
    have hparts : parts (join (Disk.pathOf d.here) s) = d.here ++ parts s := by
      rw [parts_join_relative hrel, hroot, parts_extend here]
      rfl
    rw [if_neg habs]
    apply finish
    · rw [isAbsolute_join_relative hrel, hroot, isAbsolute_extend here]
      rfl
    · rw [hparts, formal_append, formal_names here, List.nil_append, formalPlace, startFrom,
        if_neg habs]

theorem noNul_absolute {d : Disk} {s : String} (here : AllProper d.here) (hs : '\x00' ∉ s.toList) :
    '\x00' ∉ (d.absolute s).toList := by
  obtain ⟨r, hr, absolute⟩ := absolute_eq here hs
  rw [absolute, nul_mem_extend (allProper_formalPlace here hs)]
  exact hr.noNul

end SqlMigration.Files
