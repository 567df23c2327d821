import SqlMigration.Proofs.Files.Making
import SqlMigration.Proofs.Files.Twin

/-!
# Actions that may be refused

A path may be too long for what is to be done. Where nothing else is in the way,
making a path, writing and copying each do what they are for or are refused, and
whatever succeeds has kept to the limits for paths.
-/

set_option autoImplicit false

namespace SqlMigration.Files

open SqlMigration.Path Effect

/-! ### Paths that something is found by -/

theorem Fresh.fits {d : Disk} {u : String} {p : Place} (h : Fresh d u p) : Fits u := by
  refine ⟨h.noNul, h.short, fun n hn => ?_⟩
  rw [← parts_bare, parts_parent, h.proper.parts] at hn
  rcases List.mem_append.mp hn with hn | hn
  · have above := (Fits.of_find h.found).shortNames n
    rw [parts_join_relative not_isAbsolute_dot, container] at above
    split at above
    · next empty =>
      rw [empty] at hn
      cases hn
    · exact above (List.mem_append_left _ hn)
  · rw [List.mem_singleton] at hn
    exact hn ▸ h.shortName

theorem ensureDirectory_fits {d e : Disk} {u : String} (h : ensureDirectory u d = .ok () e) : Fits u := by
  rcases ensureDirectory_cases u d with ⟨f, run⟩ | ⟨_, there⟩ | ⟨p, fresh, _⟩
  · rw [run] at h
    cases h
  · obtain ⟨p, found⟩ := found_of_isDirectory there
    exact Fits.of_find found
  · exact fresh.fits

theorem makePath_fits {d e : Disk} {u : String} (last : Proper (ends u).2)
    (h : makePath u d = .ok () e) : Fits u := by
  by_cases there : (ends u).1 = "" ∨ (ends u).2 = "" ∨ d.exists? (ends u).1 = true
  · rw [makePath_there there] at h
    exact ensureDirectory_fits h
  · simp only [not_or, Bool.not_eq_true] at there
    obtain ⟨head, tail, missing⟩ := there
    rw [makePath_missing head tail missing] at h
    obtain ⟨_, d', _, second⟩ := ok_of_bind h
    rw [if_neg last.notDot] at second
    exact ensureDirectory_fits second

theorem proper_last {s : String} {ns : List String} (hs : Trimmed s) (hns : AllProper ns)
    (hne : ns ≠ []) : Proper (ends (extend s ns)).2 := by
  obtain ⟨ms, n, rfl⟩ := List.eq_nil_or_concat ns |>.resolve_left hne
  rw [List.concat_eq_append] at *
  rw [extend_concat, ends_eq (Or.inl rfl) (hs.extend hns.left) hns.last]
  exact hns.last

theorem Leads.found_extend {d : Disk} {s : String} {p : Place} (h : Leads d s p) (hd : d.Sound)
    {ns : List String} (hns : AllProper ns) (hne : ns ≠ [])
    (unlinked : ∀ ms, ms <+: ns → ms ≠ [] → ∀ target, d.tree.node? (p ++ ms) ≠ some (.link target))
    {last : Bool} {r : Found} (found : d.find last (extend s ns) = .ok r) :
    r.place = p ++ ns ∧ d.tree.node? (p ++ ns) = r.node? := by
  obtain ⟨j, same⟩ := h.find_extend hns hne (Fits.of_find found)
  rw [same] at found
  exact (finds_of_follow found).unlinked hns (h.directory hd) unlinked

/-! ### Towards a place -/

/-- A path leads where it did, as long as directories and links stay. -/
theorem Leads.stays {d e : Disk} {s : String} {p : Place} (h : Leads d s p) (here : e.here = d.here)
    (keep : ∀ r x, d.tree.node? r = some x → (∀ c, x ≠ .file c) → e.tree.node? r = some x) :
    Leads e s p := by
  obtain ⟨j, way⟩ := h
  exact ⟨j, here ▸ way.stays keep⟩

/-- A path that leads to a directory and may go on by names from there. -/
def Toward (d : Disk) (path : String) (q : Place) : Prop :=
  ∃ s top ns, Trimmed s ∧ Leads d s top ∧ AllProper ns ∧ path = extend s ns ∧ q = top ++ ns

namespace Toward

variable {d : Disk} {path : String} {q : Place} (h : Toward d path q)
include h

theorem extend {ns : List String} (hns : AllProper ns) : Toward d (extend path ns) (q ++ ns) := by
  obtain ⟨s, top, ms, trimmed, leads, hms, rfl, rfl⟩ := h
  exact ⟨s, top, ms ++ ns, trimmed, leads, hms.append hns, (extend_append s ms ns).symm, by simp⟩

theorem leads (hd : d.Sound) (there : d.tree.node? q = some .directory) : Leads d path q := by
  obtain ⟨s, top, ns, _, leads, hns, rfl, rfl⟩ := h
  exact leads.extended hd hns there

theorem stays {e : Disk} (here : e.here = d.here)
    (keep : ∀ r x, d.tree.node? r = some x → (∀ c, x ≠ .file c) → e.tree.node? r = some x) :
    Toward e path q := by
  obtain ⟨s, top, ns, trimmed, leads, rest⟩ := h
  exact ⟨s, top, ns, trimmed, leads.stays here keep, rest⟩

theorem makePath_ends (hd : d.Sound) (nonempty : path ≠ "") (last : Proper (ends path).2)
    (clear : Clear d.tree [] q) :
    Ends (fun _ e => ∃ t, e = { d with tree := t } ∧ Opened d.tree t [] q) (fun _ _ => True)
      (makePath path d) := by
  cases hr : makePath path d with
  | error f e => exact .error trivial
  | ok _ e =>
    have fits := makePath_fits last hr
    have run : ∃ t, makePath path d = .ok () { d with tree := t } ∧ Opened d.tree t [] q := by
      obtain ⟨s, top, ns, trimmed, leads, hns, rfl, rfl⟩ := h
      by_cases hne : ns = []
      · subst hne
        rw [List.append_nil]
        exact ⟨d.tree, makePath_leads leads nonempty fits, Opened.refl hd.tree (leads.directory hd)⟩
      · exact Points.makePath ⟨s, top, ns, trimmed, leads, hns, hne, rfl, rfl⟩ hd (Or.inl rfl) fits clear
    obtain ⟨t, same, opened⟩ := run
    rw [hr] at same
    cases same
    exact .ok ⟨t, rfl, opened⟩

end Toward

/-! ### Writing and copying -/

section Put

variable {d : Disk} {s n : String} {p : Place} (h : Leads d s p) (hd : d.Sound) (hn : Proper n)
  (spare : d.tree.node? (p ++ [n]) = none ∨ ∃ c, d.tree.node? (p ++ [n]) = some (.file c))
include h hd hn spare

theorem find_spare {r : Found} (found : d.find true (join s n) = .ok r) :
    r = .absent (p ++ [n]) ∨ ∃ c, r = .node (p ++ [n]) (.file c) := by
  have unlinked : ∀ ms, ms <+: [n] → ms ≠ [] → ∀ target, d.tree.node? (p ++ ms) ≠ some (.link target) := by
    intro ms hm hne target there
    obtain rfl : ms = [n] := (List.prefix_concat_iff.mp (show ms <+: [] ++ [n] from hm)).resolve_right
      (fun none => hne (List.prefix_nil.mp none))
    rcases spare with none | ⟨c, file⟩
    · rw [none] at there
      cases there
    · rw [file] at there
      cases there
  obtain ⟨place, node⟩ := h.found_extend hd hn.single (List.cons_ne_nil n []) unlinked found
  cases r with
  | absent q => exact Or.inl (congrArg Found.absent place)
  | node q x =>
    rcases spare with none | ⟨c, file⟩
    · rw [none] at node
      cases node
    · rw [file] at node
      cases node
      exact Or.inr ⟨c, congrArg (Found.node · _) place⟩

theorem write_ends (content : Bytes) :
    Ends (fun _ e => e = { d with tree := d.tree.put (p ++ [n]) (.file content) } ∧
      byteLength n ≤ nameLimit) (fun _ _ => True) (write (join s n) content d) := by
  rw [write, if_neg (by simp [(named_join (s := s) hn).noFinalSlash]), bind_ok (get_apply d)]
  cases found : d.find true (join s n) with
  | error r => exact .error trivial
  | ok r =>
    have short : byteLength n ≤ nameLimit :=
      (Fits.of_find found).shortNames n (by rw [parts_join hn]; simp)
    rcases find_spare h hd hn spare found with rfl | ⟨c, rfl⟩
    · exact .ok ⟨rfl, short⟩
    · exact .ok ⟨rfl, short⟩

theorem copy_ends {source : String} {a : Place} {content : Bytes}
    (found : d.find true source = .ok (.node a (.file content))) (other : a ≠ p ++ [n]) :
    Ends (fun _ e => e = { d with tree := d.tree.put (p ++ [n]) (.file content) } ∧
      byteLength n ≤ nameLimit) (fun _ _ => True) (copy source (join s n) d) := by
  have replaced : Ends (fun _ e => e = { d with tree := d.tree.put (p ++ [n]) (.file content) } ∧
      byteLength n ≤ nameLimit) (fun _ _ => True) (copyOver source (join s n) d) := by
    rw [copyOver, bind_ok (read_eq found)]
    refine (write_ends h hd hn spare content).tryCatch (fun f e _ => ?_)
    split
    · rw [bind_ok (get_apply e)]
      split <;> exact .error trivial
    · exact .error trivial
  have plain : d.isDirectory (join s n) = false := by
    rw [Disk.isDirectory, Disk.node]
    cases target : d.find true (join s n) with
    | error r => rfl
    | ok r => rcases find_spare h hd hn spare target with rfl | ⟨c, rfl⟩ <;> rfl
  have apart : placeOf? d (join s n) ≠ some a := by
    rw [placeOf?]
    cases target : d.find true (join s n) with
    | error r => simp
    | ok r =>
      rcases find_spare h hd hn spare target with rfl | ⟨c, rfl⟩
      · simp
      · simpa using other.symm
  have place : placeOf? d source = some a := by rw [placeOf?, found]
  have onto : copyOnto d source (join s n) = copyOver source (join s n) := by
    rw [copyOnto, place]
    cases there : placeOf? d (join s n) with
    | none => rfl
    | some b =>
      dsimp only
      rw [if_neg]
      rintro rfl
      exact apart there
  rw [copy_eq, bind_ok (get_apply d), plain, if_neg Bool.false_ne_true, onto]
  exact replaced

end Put

end SqlMigration.Files
