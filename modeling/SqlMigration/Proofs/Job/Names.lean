import SqlMigration.Proofs.Job.Confinement
import SqlMigration.Proofs.Macro.Merging

/-!
# Files by the names that lead to them

Which macros apply to a file is decided by the names that lead to it from the
directory that is processed, joined by slashes. They are cut out of the path that
is read before a job and out of the path that is written after it. Both times they
are the same, however the directories are spelled.
-/

set_option autoImplicit false

namespace SqlMigration

open SqlMigration.Path Files Effect

/-! ### Directories below the root -/

/-- A path whose absolute form is not that of the root. -/
structure Files.BelowRoot (d : Disk) (s : String) : Prop where
  noNul : '\x00' ∉ s.toList
  notRoot : ¬ IsRoot (d.absolute s)

instance (r : String) : Decidable (IsRoot r) := inferInstanceAs (Decidable (_ ∨ _))

instance (d : Disk) (s : String) : Decidable (BelowRoot d s) :=
  decidable_of_iff ('\x00' ∉ s.toList ∧ ¬ IsRoot (d.absolute s))
    ⟨fun h => ⟨h.1, h.2⟩, fun h => ⟨h.noNul, h.notRoot⟩⟩

theorem Files.BelowRoot.absolute_eq {d : Disk} {s : String} (h : BelowRoot d s) (hd : d.Sound) :
    ∃ r ns, IsRoot r ∧ AllProper ns ∧ ns ≠ [] ∧ d.absolute s = extend r ns := by
  have here := hd.tree.proper _ _ hd.here
  obtain ⟨r, hr, absolute⟩ := Files.absolute_eq here h.noNul
  refine ⟨r, _, hr, allProper_formalPlace here h.noNul, fun none => ?_, absolute⟩
  rw [none, extend_nil] at absolute
  exact h.notRoot (absolute ▸ hr)

theorem Files.survives_genuine : Survives Disk.Genuine (fun _ => True) :=
  fun _ _ _ _ genuine _ sets => (sets.spot genuine).genuine genuine

/-! ### Walks that keep the names -/

namespace Run

def walkNames (top : String) (visit : List String → List String → Run Unit) :
    Nat → List String → Run Unit
  | 0, _ => pure ()
  | fuel + 1, ns => do
    let (directories, others) := (← disk).list (extend top ns)
    visit ns others
    directories.forM (fun name => do
      if (← disk).isLink (extend top (ns ++ [name])) then pure ()
      else walkNames top visit fuel (ns ++ [name]))

def walkAllNames (top : String) (visit : List String → List String → Run Unit) : Run Unit :=
  if '\x00' ∈ top.toList then files (refuse .nul top) else walkNames top visit pathLimit []

/-- A walk by paths does the same as a walk by names, if the visits do. -/
theorem agree_walkNames {I : World → Prop} {top : String} {visit : String → List String → Run Unit}
    {visit' : List String → List String → Run Unit} (tidy : ∀ w, I w → w.disk.tree.Tidy)
    (keeps : ∀ ns names, AllProper ns → AllProper names → Keeps I (visit (extend top ns) names))
    (same : ∀ ns names, AllProper ns → AllProper names →
      Agree I (visit (extend top ns) names) (visit' ns names))
    (fuel : Nat) (ns : List String) (hns : AllProper ns) :
    Agree I (walk visit fuel (extend top ns)) (walkNames top visit' fuel ns) := by
  have further : ∀ fuel {ns}, AllProper ns → Keeps I (walk visit fuel (extend top ns)) := by
    intro fuel ns hns
    refine keeps_walk (V := Below top) (N := Proper) (fun w s n hw => list_proper (tidy w hw))
      (fun s n => Below.join) ?_ fuel ⟨ns, hns, rfl⟩
    rintro _ names ⟨ms, hms, rfl⟩ hn
    exact keeps ms names hms hn
  induction fuel generalizing ns with
  | zero => exact Agree.refl _
  | succ fuel ih =>
    refine agree_disk (fun w hw => ?_)
    have proper : ∀ n, n ∈ (w.disk.list (extend top ns)).1 ∨ n ∈ (w.disk.list (extend top ns)).2 →
      Proper n := fun n => list_proper (tidy w hw)
    generalize w.disk.list (extend top ns) = found at proper
    obtain ⟨directories, others⟩ := found
    have names : AllProper others := fun n hn => proper n (Or.inr hn)
    refine Agree.bind (keeps ns others hns names) (same ns others hns names) (fun _ => ?_) w hw
    refine Agree.forM directories (fun n hn => ?_) (fun n hn => ?_)
    · have next := further fuel (hns.concat (proper n (Or.inl hn)))
      rw [extend_concat] at next
      exact keeps_disk_of (fun d => Keeps.ite (fun _ => Keeps.pure _) (fun _ => next))
    · have next := ih _ (hns.concat (proper n (Or.inl hn)))
      rw [extend_concat] at next
      rw [extend_concat]
      exact agree_disk (fun w hw => Agree.ite (fun _ => Agree.refl _) (fun _ => next) w hw)

end Run

/-! ### Processing by names -/

namespace Processing

def noteOn (dir : Direction) (source target : String) : Note :=
  match dir with
  | .expand => .preprocessing source
  | .revert => .postprocessing target

/-- Processes the file with the given name that names lead to. The change of its text is told by all these
names, joined by slashes. -/
def treatFile (dir : Direction) (change : String → Text → Text) (input output : String)
    (ns : List String) (n : String) : Run Unit := do
  let source := extend input (ns ++ [n])
  let target := extend output (ns ++ [n])
  if isIgnored (← Run.disk) source n then pure ()
  else
    Run.files (makePath (extend output ns))
    if isProcessable (← Run.disk) source n then
      Run.note (noteOn dir source target)
      let text ← readText source
      writeText target (change (joined (ns ++ [n])) text)
    else Run.files (copy source target)

def treatTree (dir : Direction) (change : String → Text → Text) (input output : String) :
    Run Unit :=
  Run.walkAllNames input (fun ns names => names.forM (treatFile dir change input output ns))

theorem processFile_eq_treatFile {m : Macros} {dir : Direction} {s o : String} {ns : List String}
    {n : String} (hs : Named s) (ho : Named o) (hns : AllProper ns) (hn : Proper n) :
    processFile m dir s o (relative (extend s ns) s) n = treatFile dir (altered m dir) s o ns n := by
  rw [processFile_eq hs ho hns hn]
  cases dir with
  | expand =>
    simp only [alterFile, expandFile, relative_extend hs hns hn]
    rfl
  | revert =>
    simp only [alterFile, revertFile, relative_extend ho hns hn]
    rfl

theorem keeps_processFile_of {J : Disk → Prop} (survives : Survives J (fun _ => True)) (m : Macros)
    (dir : Direction) (input output below n : String) :
    Keeps (fun w : World => J w.disk) (processFile m dir input output below n) :=
  keeps_processFile (fun _ => Run.keeps_emit (fun _ hw => hw)) m dir
    (Run.keeps_files_of (survives.makePath (fun _ _ => trivial) trivial))
    (fun _ => Run.keeps_files_of (survives.write trivial _))
    (Run.keeps_files_of (survives.copy trivial trivial))

theorem agree_treatTree {m : Macros} {dir : Direction} {s o : String} (hs : Named s) (ho : Named o) :
    Agree (fun w : World => w.disk.Genuine) (processTree m dir s o)
      (treatTree dir (altered m dir) s o) := by
  have keeps := fun below => keeps_processFile_of survives_genuine m dir s o below
  have tidy : ∀ w : World, w.disk.Genuine → w.disk.tree.Tidy := fun w hw => hw.sound.tree.tidy
  unfold processTree treatTree Run.walkAll Run.walkAllNames
  refine Agree.ite (fun _ => Agree.refl _) (fun _ => ?_)
  refine Run.agree_walkNames tidy ?_ ?_ pathLimit [] (fun _ hn => absurd hn List.not_mem_nil)
  · exact fun ns names _ _ => Keeps.forM names (fun n _ => keeps _ n)
  · intro ns names hns hn
    refine Agree.forM names (fun n _ => keeps _ n) (fun n hm => ?_)
    rw [processFile_eq_treatFile hs ho hns (hn n hm)]
    exact Agree.refl _

theorem processDirectory_eq_treatTree {m : Macros} {dir : Direction} {input output : String} {w : World}
    (genuine : w.disk.Genuine) (hi : Named (w.disk.absolute input))
    (ho : Named (w.disk.absolute output)) :
    processDirectory m dir input output w =
      treatTree dir (altered m dir) (w.disk.absolute input) (w.disk.absolute output) w := by
  rw [processDirectory, bind_ok (Run.disk_apply w)]
  exact agree_treatTree hi ho w genuine

end Processing

def Macros.globs (m : Macros) (path : String) : List Text :=
  (m.filter (fun p => globMatches p.1 path)).map (·.1)

theorem Macros.globs_reversed (m : Macros) (path : String) : m.reversed.globs path = m.globs path := by
  simp only [globs, reversed, List.filter_map, List.map_map]
  rfl

namespace Processing

/-- Before a job and after it the macros for a file are told by the names that lead to it, and so by the
same patterns, unless one of the directories is the root. -/
theorem names_tell_macros (m : Macros) {input scratch scratch' output : String} {w w' : World}
    (genuine : w.disk.Genuine) (genuine' : w'.disk.Genuine) (hi : ¬ IsRoot (w.disk.absolute input))
    (hs : ¬ IsRoot (w.disk.absolute scratch)) (hs' : ¬ IsRoot (w'.disk.absolute scratch'))
    (ho : ¬ IsRoot (w'.disk.absolute output)) :
    processDirectory m .expand input scratch w =
        treatTree .expand m.expand (w.disk.absolute input) (w.disk.absolute scratch) w ∧
      processDirectory m .revert scratch' output w' =
        treatTree .revert m.unexpand (w'.disk.absolute scratch') (w'.disk.absolute output) w' ∧
      ∀ path, m.reversed.globs path = m.globs path :=
  ⟨processDirectory_eq_treatTree genuine (named_absolute hi) (named_absolute hs),
    processDirectory_eq_treatTree genuine' (named_absolute hs') (named_absolute ho), m.globs_reversed⟩

def deep : World :=
  World.ofDisk ⟨⟨[(["w"], .directory), (["w", "in"], .directory), (["w", "in", "d"], .directory),
    (["w", "in", "d", "b.sql"], .file (Utf8.encode "from $T".toList))]⟩, ["w"]⟩

theorem names_tell_macros_deep :
    let m : Macros := [("d/*.sql", [("$T", "orders")]), ("*.sql", [("from", "of")])]
    deep.disk.Genuine ∧
      (∀ s ∈ ["in/./d/..", "/w//tmp/", "../w/in/", "out/."], ¬ IsRoot (deep.disk.absolute s)) ∧
      processDirectory m .expand "in/./d/.." "/w//tmp/" deep =
        treatTree .expand m.expand "/w/in" "/w/tmp" deep ∧
      processDirectory m .revert "../w/in/" "out/." deep =
        treatTree .revert m.unexpand "/w/in" "/w/out" deep ∧
      m.reversed.globs "d/b.sql" = (["d/*.sql", "*.sql"] : List Text) := by
  intro m
  have genuine : deep.disk.Genuine :=
    Disk.genuine_of_entries (by decide) (by decide) rfl (by simp [deep, World.ofDisk])
  have inner : ∀ s ∈ ["in/./d/..", "/w//tmp/", "../w/in/", "out/."], ¬ IsRoot (deep.disk.absolute s) := by
    decide
  have known := names_tell_macros m genuine genuine (inner "in/./d/.." (by simp))
    (inner "/w//tmp/" (by simp)) (inner "../w/in/" (by simp)) (inner "out/." (by simp))
  rw [show deep.disk.absolute "in/./d/.." = "/w/in" by decide,
    show deep.disk.absolute "/w//tmp/" = "/w/tmp" by decide,
    show deep.disk.absolute "../w/in/" = "/w/in" by decide,
    show deep.disk.absolute "out/." = "/w/out" by decide] at known
  exact ⟨genuine, inner, known.1, known.2.1, (known.2.2 _).trans (by decide)⟩

end Processing

end SqlMigration
