import SqlMigration.Job.Batch
import SqlMigration.Proofs.Files.Absolute
import SqlMigration.Proofs.Files.Laid

/-!
# Where the directories of a job stand

The scratch directory stands beside the input directory, and what goes out and
what comes back stand in it. Each of them is reached by a path as it was given
and by its absolute form.
-/

set_option autoImplicit false

namespace SqlMigration.Batch

open SqlMigration.Path Files

def base (b : Batch) : String := Path.parent b.input

def scratchAt (place : Place) : Place := place.dropLast ++ [".tmp_processed"]

def outgoingAt (place : Place) : Place := scratchAt place ++ ["input"]

def incomingAt (place : Place) : Place := scratchAt place ++ ["output"]

theorem proper_tmp : Proper ".tmp_processed" := by decide

theorem scratch_eq (b : Batch) : b.scratch = extend b.base [".tmp_processed"] := by
  rw [extend_cons, extend_nil, scratch, base]

theorem outgoing_eq {b : Batch} (h : b.macros.isSome = true) :
    b.localInput = extend b.base [".tmp_processed", "input"] := by
  rw [localInput, if_pos h, scratch_eq, ← extend_concat]
  simp

theorem incoming_eq (b : Batch) : b.scratchOutput = extend b.base [".tmp_processed", "output"] := by
  rw [scratchOutput, scratch_eq, ← extend_concat]
  simp

def scratchPlace (b : Batch) (here : Place) : Place := formalPlace here b.scratch

theorem scratchPlace_extend (b : Batch) (here : Place) {ns : List String} (hns : AllProper ns) :
    formalPlace here (extend b.base (".tmp_processed" :: ns)) = b.scratchPlace here ++ ns := by
  rw [extend_cons, formalPlace_extend _ _ hns]
  rfl

theorem noNul_scratch {b : Batch} (noNul : '\x00' ∉ b.input.toList) {ns : List String}
    (hns : AllProper ns) : '\x00' ∉ (extend b.base (".tmp_processed" :: ns)).toList := by
  have proper : AllProper (".tmp_processed" :: ns) := by
    intro n hn
    rcases List.mem_cons.mp hn with rfl | hn
    · exact proper_tmp
    · exact hns n hn
  rw [nul_mem_extend proper]
  exact fun hm => noNul (mem_of_mem_parent hm)

theorem points_root {d : Disk} {r : String} (hr : IsRoot r) {p : Place} (hp : AllProper p)
    (hne : p ≠ []) : Points d (extend r p) p :=
  ⟨r, [], p, hr.trimmed, hr.leads d, hp, hne, rfl, rfl⟩

/-- The input path leads to a directory without links, and it ends in a proper name. -/
structure Placed (b : Batch) (d : Disk) (place : Place) : Prop where
  plain : follow d.tree true 0 (startFrom d.here b.input) (parts b.input) =
    .ok (.node place .directory)
  named : Proper (name b.input)
  noNul : '\x00' ∉ b.input.toList

section Placed

variable {b : Batch} {d : Disk} {place : Place} (h : b.Placed d place)
include h

theorem Placed.way : Way d.tree 0 (startFrom d.here b.input) (parts b.input) 0 place := by
  obtain ⟨j, hj⟩ := exists_way h.plain
  have := hj.le
  rwa [show j = 0 by omega] at hj

theorem Placed.parent_way :
    Way d.tree 0 (startFrom d.here b.base) (parts b.base) 0 place.dropLast ∧
      place = place.dropLast ++ [name b.input] := by
  have way := h.way
  rw [parts_parent, h.named.parts] at way
  obtain ⟨r, hr, rfl⟩ := way.unsnoc h.named
  rw [base, startFrom, isAbsolute_parent, List.dropLast_concat]
  exact ⟨hr, rfl⟩

theorem Placed.ne_nil : place ≠ [] := by
  rw [h.parent_way.2]
  simp

theorem Placed.leads_parent : Leads d b.base place.dropLast :=
  ⟨linkLimit, by simpa using h.parent_way.1.add linkLimit⟩

theorem Placed.mono {u : Tree} (keep : ∀ r x, d.tree.node? r = some x → u.node? r = some x) :
    b.Placed { d with tree := u } place :=
  ⟨(h.way.mono keep).follow_eq, h.named, h.noNul⟩

theorem Placed.apart_scratch (distinct : name b.input ≠ ".tmp_processed") (ns : List String) :
    Apart place (scratchAt place ++ ns) := by
  refine Apart.symm (Apart.append ?_ ns)
  rw [scratchAt, h.parent_way.2, List.dropLast_concat]
  exact apart_siblings _ distinct.symm

theorem Placed.points {ns : List String} (hns : AllProper ns) :
    Points d (extend b.base (".tmp_processed" :: ns)) (scratchAt place ++ ns) := by
  refine ⟨_, _, _, trimmed_parent _, h.leads_parent, ?_, by simp, rfl, by simp [scratchAt]⟩
  intro n hn
  rcases List.mem_cons.mp hn with rfl | hn
  · exact proper_tmp
  · exact hns n hn

variable (hd : d.Sound)
include hd

theorem Placed.proper : AllProper place :=
  hd.tree.proper _ _ (h.way.directory hd.tree (directory_startFrom hd b.input))

theorem Placed.directory : d.tree.node? place = some .directory :=
  h.way.directory hd.tree (directory_startFrom hd b.input)

theorem Placed.proper_scratch : AllProper (scratchAt place) := by
  have whole := h.proper hd
  rw [h.parent_way.2] at whole
  exact whole.left.concat proper_tmp

theorem Placed.absolute_input : ∃ r, IsRoot r ∧ d.absolute b.input = extend r place := by
  obtain ⟨r, hr, e⟩ := absolute_eq (hd.tree.proper _ _ hd.here) h.noNul
  refine ⟨r, hr, ?_⟩
  rw [e, formalPlace, ← h.way.formal_eq rfl]

theorem Placed.named_absolute : Named (d.absolute b.input) := by
  obtain ⟨r, _, e⟩ := h.absolute_input hd
  rw [e]
  exact named_extend (h.proper hd) h.ne_nil

theorem Placed.absolute_scratch {ns : List String} (hns : AllProper ns) :
    ∃ r, IsRoot r ∧ d.absolute (extend b.base (".tmp_processed" :: ns)) =
      extend r (scratchAt place ++ ns) := by
  have proper : AllProper (".tmp_processed" :: ns) := by
    intro n hn
    rcases List.mem_cons.mp hn with rfl | hn
    · exact proper_tmp
    · exact hns n hn
  have noNul : '\x00' ∉ (extend b.base (".tmp_processed" :: ns)).toList := by
    rw [nul_mem_extend proper]
    exact fun hm => h.noNul (mem_of_mem_parent hm)
  obtain ⟨r, hr, e⟩ := absolute_eq (hd.tree.proper _ _ hd.here) noNul
  refine ⟨r, hr, ?_⟩
  rw [e, formalPlace_extend _ _ proper, formalPlace, ← h.parent_way.1.formal_eq rfl]
  simp [scratchAt]

theorem Placed.leads_absolute : Leads d (d.absolute b.input) place := by
  obtain ⟨r, hr, e⟩ := h.absolute_input hd
  rw [e]
  exact (points_root hr (h.proper hd) h.ne_nil).leads hd (h.directory hd)

theorem Placed.points_absolute {ns : List String} (hns : AllProper ns) :
    Points d (d.absolute (extend b.base (".tmp_processed" :: ns))) (scratchAt place ++ ns) := by
  obtain ⟨r, hr, e⟩ := h.absolute_scratch hd hns
  rw [e]
  exact points_root hr ((h.proper_scratch hd).append hns) (by simp [scratchAt])

theorem Placed.directory_parent : d.tree.node? place.dropLast = some .directory :=
  h.leads_parent.directory hd

theorem Placed.free_scratch (fresh : d.tree.node? (scratchAt place) = none) (ns : List String) :
    Free d.tree (scratchAt place ++ ns) := by
  have free := free_of_missing hd.tree ns (h.directory_parent hd) fresh
  rwa [scratchAt, List.append_assoc]

end Placed

/-! ### The output directory -/

/-- A path at which a directory can be made: nothing is there yet, and as far as the path exists it
leads to a directory. -/
structure Creatable (d : Disk) (path : String) (top : Place) : Prop where
  noNul : '\x00' ∉ path.toList
  downward : ".." ∉ parts path
  reach : ∃ ms q n ns, (parts path).filter (fun k => k ≠ ".") = ms ++ n :: ns ∧
    follow d.tree true linkLimit (startFrom d.here path) ms = .ok (.node q .directory) ∧
    d.tree.node? (q ++ [n]) = none ∧ top = q ++ n :: ns

section Creatable

variable {d : Disk} {path : String} {top : Place} (h : Creatable d path top) (hd : d.Sound)
include h hd

theorem Creatable.free : Free d.tree top := by
  obtain ⟨ms, q, n, ns, _, reached, missing, rfl⟩ := h.reach
  obtain ⟨j, way⟩ := exists_way reached
  exact free_of_missing hd.tree ns (way.directory hd.tree (directory_startFrom hd path)) missing

theorem Creatable.points : Points d (d.absolute path) top := by
  obtain ⟨ms, q, n, ns, split, reached, missing, rfl⟩ := h.reach
  obtain ⟨j, way⟩ := exists_way reached
  have here := hd.tree.proper _ _ hd.here
  have start := directory_startFrom hd path
  obtain ⟨r, hr, e⟩ := absolute_eq here h.noNul
  have formally : formalPlace d.here path = startFrom d.here path ++ ms ++ n :: ns := by
    rw [formalPlace, formal_eq_append h.downward, split, List.append_assoc]
  have proper := allProper_formalPlace here h.noNul
  rw [formally] at proper
  have leads : Leads d (extend r (startFrom d.here path ++ ms)) q := by
    have absolute : isAbsolute (extend r (startFrom d.here path ++ ms)) = true := by
      rw [isAbsolute_extend proper.left]
      rcases hr with rfl | rfl <;> rfl
    have none : parts r = [] := by rcases hr with rfl | rfl <;> rfl
    have first : Way d.tree linkLimit [] (startFrom d.here path) linkLimit (startFrom d.here path) :=
      Way.names hd.tree linkLimit start
    refine ⟨j, ?_⟩
    rw [startFrom, if_pos absolute, parts_extend proper.left, none, List.nil_append]
    exact first.append way
  refine ⟨_, q, n :: ns, hr.trimmed.extend proper.left, leads, proper.right, by simp, ?_, rfl⟩
  rw [e, formally, extend_append]

end Creatable

/-! ### The path of the job in the bucket -/

theorem storagePath_head (b : Batch) (now : Minute) (uuid : String) :
    (b.storagePath now uuid).toList.head? = some 'T' := by
  simp [storagePath, conversionName, Conversion.name]

theorem storagePath_ne_empty (b : Batch) (now : Minute) (uuid : String) :
    b.storagePath now uuid ≠ "" := by
  intro e
  have head := b.storagePath_head now uuid
  rw [e] at head
  cases head

theorem storagePath_relative (b : Batch) (now : Minute) (uuid : String) :
    isAbsolute (b.storagePath now uuid) = false := by
  rw [isAbsolute, storagePath_head]
  rfl

end SqlMigration.Batch
