import SqlMigration.Proofs.Files.Attempts
import SqlMigration.Proofs.Job.Names

/-!
# The order of a walk

A walk over a directory comes past its files in an order that can be told in
advance, as long as what it does leaves the directory as it is. So it is a loop
over these files, and where it stops it has dealt with those that come before.
-/

set_option autoImplicit false

namespace SqlMigration

open SqlMigration.Path Files Effect

/-- Below a place without links a lookup depends only on what is there. -/
theorem Files.follow_unlinked {t u : Tree} {p : Place} (unlinked : Unlinked t p)
    (same : ∀ q, u.node? (p ++ q) = t.node? (p ++ q)) (last : Bool) (j k : Nat) {ns : List String}
    (hns : AllProper ns) : follow u last j p ns = follow t last k p ns := by
  induction ns generalizing p with
  | nil => rw [follow_nil, follow_nil]
  | cons n ns ih =>
    have next := ih (p := p ++ [n]) (fun q target => by rw [List.append_assoc]; exact unlinked _ target)
      (fun q => by rw [List.append_assoc]; exact same _) hns.tail
    rw [follow_cons, follow_cons, if_neg hns.head.notDot, if_neg hns.head.notParent,
      if_neg hns.head.notDot, if_neg hns.head.notParent, same, next]
    cases here : t.node? (p ++ [n]) with
    | none => rfl
    | some x =>
      cases x with
      | file content => rfl
      | directory => rfl
      | link target => exact absurd here (unlinked [n] target)

theorem Files.list_nodup {d : Disk} (nodup : (Table.keys d.tree.entries).Nodup) (path : String) :
    (d.list path).1.Nodup ∧ (d.list path).2.Nodup := by
  rw [Disk.list]
  split
  · rw [List.partition_eq_filter_filter]
    exact ⟨(Tree.names_nodup nodup _).filter _, (Tree.names_nodup nodup _).filter _⟩
  · exact ⟨List.nodup_nil, List.nodup_nil⟩

namespace Run

/-! ### What is seen below a directory -/

section Sees

variable {w : World} {d : Disk} {s : String} {p : Place} (h : Sees w s p d.tree) (hl : Leads d s p)
  (hd : d.Sound) (unlinked : Unlinked d.tree p) {ns : List String} (hns : AllProper ns)
include h hl unlinked hns

theorem Sees.find_eq {last : Bool} (deep : last = true ∨ ns ≠ []) :
    w.disk.find last (extend s ns) = d.find last (extend s ns) := by
  have same : follow w.disk.tree last linkLimit (startFrom w.disk.here (extend s ns))
      (steps (extend s ns)) =
      follow d.tree last linkLimit (startFrom d.here (extend s ns)) (steps (extend s ns)) := by
    by_cases hne : ns = []
    · obtain rfl := deep.resolve_right (fun some => some hne)
      rw [hne, extend_nil, h.leads.follow_steps, hl.follow_steps]
    · obtain ⟨j, hj⟩ := h.leads.follow_extend hns hne
      obtain ⟨k, hk⟩ := hl.follow_extend hns hne
      rw [hj, hk]
      exact follow_unlinked unlinked h.same last j k hns
  simp only [Disk.find, same]

theorem Sees.isFile_eq : w.disk.isFile (extend s ns) = d.isFile (extend s ns) := by
  simp only [Disk.isFile, Disk.node, h.find_eq hl unlinked hns (Or.inl rfl)]

theorem Sees.isLink_same (hne : ns ≠ []) : w.disk.isLink (extend s ns) = d.isLink (extend s ns) := by
  simp only [Disk.isLink, Disk.node, h.find_eq hl unlinked hns (Or.inr hne)]

include hd

theorem Sees.list_same : w.disk.list (extend s ns) = d.list (extend s ns) := by
  have find : ∀ {ms}, AllProper ms → w.disk.find true (extend s ms) = d.find true (extend s ms) :=
    fun hms => h.find_eq hl unlinked hms (Or.inl rfl)
  have same : ∀ n, w.disk.tree.node? (p ++ ns ++ [n]) = d.tree.node? (p ++ ns ++ [n]) := by
    intro n
    rw [List.append_assoc]
    exact h.same (ns ++ [n])
  refine list_congr (find hns) (fun q found => ?_)
  have place : q = p ++ ns := by
    by_cases hne : ns = []
    · rw [hne, extend_nil] at found
      cases hl.found found
      rw [hne, List.append_nil]
    · exact (hl.found_extend hd hns hne (fun ms _ _ => unlinked ms) found).1
  subst place
  refine ⟨Tree.names_congr h.sound.tree.nodup hd.tree.nodup same, fun n hn => ?_⟩
  obtain ⟨x, hx⟩ := (Tree.mem_names _ _ _).mp hn
  have proper : AllProper (ns ++ [n]) := hns.concat (hd.tree.proper _ x hx).last
  simp only [Disk.countsAsDirectory, same, ← extend_concat, Disk.isDirectory, Disk.node, find proper]

end Sees

/-! ### The files in their order -/

/-- The files that a walk comes past on a disk that stays as it is, each with the names that lead to its
directory. -/
def listed (d : Disk) (s : String) : Nat → List String → List (List String × String)
  | 0, _ => []
  | fuel + 1, ns =>
    (d.list (extend s ns)).2.map (fun n => (ns, n)) ++
      (d.list (extend s ns)).1.flatMap (fun n =>
        if d.isLink (extend s (ns ++ [n])) then [] else listed d s fuel (ns ++ [n]))

section Listed

variable {d : Disk} {s : String} {fuel : Nat} {ns : List String}

theorem listed_below {x : List String × String} (h : x ∈ listed d s fuel ns) : ns <+: x.1 := by
  induction fuel generalizing ns with
  | zero => cases h
  | succ fuel ih =>
    rw [listed, List.mem_append] at h
    rcases h with h | h
    · obtain ⟨n, _, rfl⟩ := List.mem_map.mp h
      exact List.prefix_refl _
    · obtain ⟨n, _, h⟩ := List.mem_flatMap.mp h
      exact (List.prefix_append ns [n]).trans (ih (List.mem_ite_nil_left.mp h).2)

theorem listed_proper (tidy : d.tree.Tidy) (hns : AllProper ns) {x : List String × String}
    (h : x ∈ listed d s fuel ns) : AllProper (x.1 ++ [x.2]) := by
  induction fuel generalizing ns with
  | zero => cases h
  | succ fuel ih =>
    rw [listed, List.mem_append] at h
    rcases h with h | h
    · obtain ⟨n, hn, rfl⟩ := List.mem_map.mp h
      exact hns.concat (list_proper tidy (Or.inr hn))
    · obtain ⟨n, hn, h⟩ := List.mem_flatMap.mp h
      exact ih (hns.concat (list_proper tidy (Or.inl hn))) (List.mem_ite_nil_left.mp h).2

theorem listed_nodup (nodup : (Table.keys d.tree.entries).Nodup) : (listed d s fuel ns).Nodup := by
  induction fuel generalizing ns with
  | zero => exact List.nodup_nil
  | succ fuel ih =>
    obtain ⟨directories, others⟩ := list_nodup nodup (extend s ns)
    rw [listed, List.nodup_append]
    refine ⟨others.map (fun a b e => (Prod.mk.inj e).2), ?_, ?_⟩
    · rw [List.nodup_flatMap]
      refine ⟨fun n _ => ?_, directories.imp ?_⟩
      · split
        · exact List.nodup_nil
        · exact ih
      · intro a b hab x ha hb
        have one := List.prefix_of_prefix_length_le (listed_below (List.mem_ite_nil_left.mp ha).2)
          (listed_below (List.mem_ite_nil_left.mp hb).2) (by simp)
        exact hab (by simpa using one.eq_of_length (by simp))
    · intro x hx y hy e
      obtain ⟨m, _, rfl⟩ := List.mem_map.mp hx
      obtain ⟨k, _, hy⟩ := List.mem_flatMap.mp hy
      have := (listed_below (List.mem_ite_nil_left.mp hy).2).length_le
      rw [← e, List.length_append] at this
      simp only [List.length_singleton] at this
      omega

end Listed

/-- If each file is dealt with so that the invariant for the files so far goes on to hold, or in a way that
stops the walk, then so does the walk for all files. -/
theorem walkNames_ends {d : Disk} {s : String} {p : Place} (hl : Leads d s p) (hd : d.Sound)
    (unlinked : Unlinked d.tree p) {each : List String → String → Run Unit}
    {whole : List (List String × String)} (I : List (List String × String) → World → Prop)
    {E : Stop → World → Prop} (view : ∀ done w, I done w → Sees w s p d.tree)
    (step : ∀ before x after w, whole = before ++ x :: after → I before w →
      Ends (fun _ => I (before ++ [x])) E (each x.1 x.2 w))
    (fuel : Nat) {ns : List String} (hns : AllProper ns) {before after : List (List String × String)}
    {w : World} (parts : whole = before ++ listed d s fuel ns ++ after) (h : I before w) :
    Ends (fun _ => I (before ++ listed d s fuel ns)) E
      (walkNames s (fun ns names => names.forM (each ns)) fuel ns w) := by
  induction fuel generalizing ns before after w with
  | zero =>
    rw [listed, List.append_nil]
    exact .ok h
  | succ fuel ih =>
    rw [listed] at parts ⊢
    rw [walkNames, bind_ok (Run.disk_apply w), (view _ w h).list_same hl hd unlinked hns]
    dsimp only
    have proper : ∀ n ∈ (d.list (extend s ns)).1, AllProper (ns ++ [n]) := fun n hn =>
      hns.concat (list_proper hd.tree.tidy (Or.inl hn))
    generalize d.list (extend s ns) = found at parts proper ⊢
    obtain ⟨directories, others⟩ := found
    -- first the files of the directory, then the directories in it
    have first := Ends.forM (f := each ns) (E := E) others
      (fun done w => I (before ++ done.map (fun n => (ns, n))) w)
      (by
        intro done n rest w e hw
        dsimp only at parts
        rw [e] at parts
        have next := step (before ++ done.map (fun n => (ns, n))) (ns, n) _ w
          (by rw [parts]; simp; rfl) hw
        simpa using next)
      (show I (before ++ [].map (fun n => (ns, n))) w by simpa using h)
    refine first.bind (fun _ w₁ h₁ => ?_)
    rw [← List.append_assoc]
    refine Ends.forM directories (fun done w => I (before ++ others.map (fun n => (ns, n)) ++
      done.flatMap (fun n => if d.isLink (extend s (ns ++ [n])) then []
        else listed d s fuel (ns ++ [n]))) w) ?_ (by simpa using h₁)
    intro done n rest w e hw
    have hn := proper n (by rw [e]; simp)
    dsimp only at parts
    rw [e] at parts
    rw [bind_ok (Run.disk_apply w), (view _ w hw).isLink_same hl unlinked hn (by simp)]
    cases link : d.isLink (extend s (ns ++ [n])) with
    | true =>
      rw [if_pos rfl]
      refine .ok ?_
      simpa [link] using hw
    | false =>
      rw [if_neg Bool.false_ne_true]
      have next := @ih (ns ++ [n]) hn _ (rest.flatMap (fun n => if d.isLink (extend s (ns ++ [n])) then []
        else listed d s fuel (ns ++ [n])) ++ after) w (by rw [parts]; simp [link]) hw
      simpa [link] using next

end Run

end SqlMigration
