import SqlMigration.Proofs.CommandLine.Reading
import SqlMigration.Proofs.Job.Confinement
import SqlMigration.Proofs.Job.Layout
import SqlMigration.Proofs.Job.Order
import SqlMigration.Proofs.Job.Pipeline

/-!
# The scratch directory and the input directory

The scratch directory belongs beside the input directory. It is found by taking
the last part off the input path, so that it stands apart from the input directory
where that part is a name of its own. Then preprocessing reads nothing in the
scratch directory, and cleaning up takes nothing from the input directory. A path
that ends in a dot, in a parent step or at the root has the scratch directory
inside the input directory instead.
-/

set_option autoImplicit false

namespace SqlMigration

open SqlMigration.Path Files Effect

/-! ### The last part of a path -/

theorem Files.find_eq_follow {d : Disk} {s : String} {r : Found} (found : d.find true s = .ok r)
    (last : Bool) :
    '\x00' ∉ s.toList ∧
      d.find last s = follow d.tree last linkLimit (startFrom d.here s) (steps s) := by
  rw [Disk.find] at found ⊢
  split_ifs at found with nul empty long
  exact ⟨nul, by rw [if_neg nul, if_neg empty, if_neg long]⟩

theorem Path.not_endsWithSlash {s : String} (hn : Proper (name s)) : endsWithSlash s = false := by
  obtain ⟨front, whole, _⟩ := split_spec s
  have last := hn.not_endsWithSlash
  rw [endsWithSlash, decide_eq_false_iff_not] at last ⊢
  rwa [whole, List.getLast?_append_of_ne_nil _ hn.toList_ne_nil]

theorem Path.name_improper {s : String} (noNul : '\x00' ∉ s.toList) (h : ¬ Proper (name s)) :
    name s = "" ∨ name s = "." ∨ name s = ".." := by
  obtain ⟨_, _, noSlash, _⟩ := split_spec s
  by_contra none
  rw [not_or, not_or] at none
  exact h ⟨none.1, noSlash, fun hm => noNul (mem_of_mem_name hm), none.2.1, none.2.2⟩

theorem Files.Way.one {t : Tree} {k j : Nat} {p q : Place} {n : String} (h : Way t k p [n] j q) :
    (n = "." ∧ q = p) ∨ (n = ".." ∧ q = p.dropLast) ∨
      IsName n ∧ (q = p ++ [n] ∨ ∃ target, t.node? (p ++ [n]) = some (.link target)) := by
  cases h with
  | dot more =>
    cases more
    exact Or.inl ⟨rfl, rfl⟩
  | up more =>
    cases more
    exact Or.inr (Or.inl ⟨rfl, rfl⟩)
  | enter dot up short _ more =>
    cases more
    exact Or.inr (Or.inr ⟨⟨dot, up, short⟩, Or.inl rfl⟩)
  | link dot up short here _ => exact Or.inr (Or.inr ⟨⟨dot, up, short⟩, Or.inr ⟨_, here⟩⟩)

theorem Files.leads_through {d : Disk} {s : String} {place : Place}
    (found : d.find true s = .ok (.node place .directory)) : ∃ base, Leads d (Path.parent s) base ∧
      (¬ Proper (name s) → place <+: base) ∧
      (Proper (name s) → d.isLink s = false → place = base ++ [name s]) := by
  obtain ⟨j, way⟩ := leads_of_find found
  obtain ⟨noNul, looked⟩ := find_eq_follow found false
  have split := parts_parent s
  rw [split] at way
  obtain ⟨i, base, first, last⟩ := way.split_append
  have start : startFrom d.here (Path.parent s) = startFrom d.here s := by
    rw [startFrom, startFrom, isAbsolute_parent]
  have leads : Leads d (Path.parent s) base := by
    rw [Leads, start]
    exact ⟨i, first⟩
  refine ⟨base, leads, fun improper => ?_, fun proper unlinked => ?_⟩
  · rcases name_improper noNul improper with none | dot | up
    · rw [none, show parts "" = [] by decide] at last
      cases last
      exact List.prefix_refl _
    · rw [dot, parts_dot] at last
      rcases last.one with ⟨_, rfl⟩ | ⟨up, _⟩ | ⟨name, _⟩
      · exact List.prefix_refl _
      · exact absurd up (by decide)
      · exact absurd rfl name.notDot
    · rw [up, show parts ".." = [".."] by decide] at last
      rcases last.one with ⟨dot, _⟩ | ⟨_, rfl⟩ | ⟨name, _⟩
      · exact absurd dot (by decide)
      · exact List.dropLast_prefix _
      · exact absurd rfl name.notParent
  · rw [proper.parts] at last split
    rcases last.one with ⟨dot, _⟩ | ⟨up, _⟩ | ⟨name, rfl | ⟨target, here⟩⟩
    · exact absurd dot proper.notDot
    · exact absurd up proper.notParent
    · rfl
    · -- a link at the end would have been seen
      rw [steps, not_endsWithSlash proper, if_neg Bool.false_ne_true, split,
        first.follow_append (Or.inr (List.cons_ne_nil _ _)), name.follow_cons, here] at looked
      rw [Disk.isLink, Disk.node, looked] at unlinked
      cases unlinked

theorem Files.Leads.entry {d : Disk} {s : String} {p : Place} (h : Leads d s p) {n : String}
    (hn : Proper n) {r : Found} (found : d.find false (join s n) = .ok r) : r.place = p ++ [n] := by
  obtain ⟨j, same⟩ := h.follow_extend hn.single (List.cons_ne_nil n [])
  rw [Disk.find] at found
  split_ifs at found
  rw [show join s n = extend s [n] from rfl, same] at found
  cases finds_of_follow found with
  | dot _ => exact absurd rfl hn.notDot
  | up _ => exact absurd rfl hn.notParent
  | absent _ _ | file _ _ | stop _ _ _ => rfl
  | enter _ _ more =>
    cases more
    rfl
  | link _ _ go _ => cases go

/-! ### What a run takes away -/

/-- All that is in a directory of the first disk is on the second one, apart from the contents of
files. -/
def Files.KeptIn (place : Place) (d e : Disk) : Prop :=
  ∀ r x, d.tree.node? (place ++ r) = some x → e.tree.node? (place ++ r) = some x ∨
    ∃ old new, x = .file old ∧ e.tree.node? (place ++ r) = some (.file new)

theorem Files.survives_kept (d : Disk) :
    Survives (fun e => e.Genuine ∧ Kept d e) (fun _ => True) := by
  rintro e u r x ⟨genuine, kept⟩ _ sets
  have spot := sets.spot genuine
  exact ⟨spot.genuine genuine, kept.set spot⟩

theorem lasting_disk (J : Disk → Prop) : Lasting (fun _ => True) (fun w => J w.disk) where
  emit _ _ := Keeps.modify (fun _ hw => hw)
  stored _ := Keeps.modify (fun _ hw => hw)

namespace Batch

section Unsent

variable {I : World → Prop} (emit : ∀ e, e.isSent = false → Keeps I (Run.emit e))
include emit

theorem keeps_wait (look : ∀ w job start, I w → I (looked w job start)) (b : Batch) (job : String)
    (limit : Int) : Keeps I (b.wait job limit) := by
  have givesUp : ∀ seconds, Keeps I (poll.giveUp b job seconds) := fun _ =>
    Keeps.bind (keeps_link b job) (fun _ => Keeps.bind (emit _ rfl) (fun _ => Keeps.throw _))
  have polls : ∀ start fuel seconds, Keeps I (b.poll job limit start fuel seconds) := by
    intro start fuel
    induction fuel with
    | zero => exact givesUp
    | succ fuel ih =>
      intro seconds w hw
      by_cases early : seconds < limit
      · rw [poll_succ b job start fuel early]
        split
        · exact look w job start hw
        · split
          · exact look w job start hw
          · exact ih _ _ (look w job start hw)
      · rw [poll, if_neg early]
        exact givesUp seconds w hw
  exact fun w hw => polls w.clock (looks limit w) 0 w hw

theorem keeps_download (make : ∀ path, Keeps I (Run.files (makePath path)))
    (write : ∀ path content, Keeps I (Run.files (Files.write path content))) (directory : Given)
    (bucket stem : String) : Keeps I (Transfer.download directory bucket stem) := by
  have each : ∀ o, Keeps I (Transfer.downloadObject directory bucket stem o) := fun o =>
    Keeps.bind (keeps_needed directory) (fun s => Keeps.bind (make _) (fun _ =>
      Keeps.bind (emit _ rfl) (fun _ => Keeps.bind (emit _ rfl) (fun _ => write _ _))))
  refine Keeps.bind (emit _ rfl) (fun _ => Keeps.get_bind (fun w hw => ?_))
  cases w.storage.list bucket stem with
  | error f => exact hw
  | ok objects =>
    have fetched : Keeps I (do
        Run.note (.downloadStarted bucket stem)
        objects.forM (Transfer.downloadObject directory bucket stem)
        Run.note (.downloaded directory.text)) :=
      Keeps.bind (emit _ rfl) (fun _ =>
        Keeps.bind (Keeps.forM objects (fun o _ => each o)) (fun _ => emit _ rfl))
    exact fetched w hw

end Unsent

section Surviving

variable {J : Disk → Prop} (b : Batch)

theorem keeps_note_disk (n : Note) : Keeps (fun w : World => J w.disk) (Run.note n) :=
  (lasting_disk J).emit _ trivial

theorem keeps_create (source target : String) :
    Keeps (fun w : World => J w.disk) (b.create source target) := by
  intro w hw
  obtain ⟨storage, run⟩ := b.create_apply source target w
  rw [run]
  cases w.service.created <;> exact hw

variable (survives : Survives J (fun _ => True))
include survives

theorem keeps_processing (m : Macros) (dir : Processing.Direction) (input output : String) :
    Keeps (fun w : World => J w.disk) (Processing.processDirectory m dir input output) :=
  Run.keeps_disk_of (fun _ =>
    Processing.keeps_processTree (V := fun _ => True) (N := fun _ => True) (fun _ _ _ _ _ => trivial)
      (fun _ _ _ _ => trivial)
      (fun _ _ _ _ => Processing.keeps_processFile keeps_note_disk m dir
        (Run.keeps_files_of (survives.makePath (fun _ _ => trivial) trivial))
        (fun _ => Run.keeps_files_of (survives.write trivial _))
        (Run.keeps_files_of (survives.copy trivial trivial))) trivial)

/-- What survives the actions of a run up to cleaning up, and leads to another property there and
wherever the run stops, leads to it at the end. -/
theorem start_leads {K : Disk → Prop} (tidy : ∀ d, J d → d.tree.Tidy) (stop : ∀ d, J d → K d)
    (cleans : ∀ v : World, J v.disk → K (final (b.cleanUp v)).disk) {w : World} (h : J w.disk) :
    K (final (b.start w)).disk := by
  have before : ∀ {α : Type} {x : Run α}, Keeps (fun v => J v.disk) x →
      Takes (fun v => J v.disk) (fun _ v => J v.disk) (fun v => K v.disk) x :=
    fun keeps => keeps.takes (fun v => stop v.disk)
  have after : ∀ {α : Type} {x : Run α}, Keeps (fun v => K v.disk) x →
      Takes (fun v => K v.disk) (fun _ v => K v.disk) (fun v => K v.disk) x :=
    fun keeps => keeps.takes (fun _ hv => hv)
  have path : Keeps (fun v => J v.disk) b.newStoragePath := fun v hv => hv
  have expands : Keeps (fun v => J v.disk) b.preprocess :=
    b.keeps_preprocess keeps_note_disk (fun m => keeps_processing survives m _ _ _)
  have reverts : Keeps (fun v => J v.disk) b.postprocess :=
    b.keeps_postprocess keeps_note_disk (fun m output => keeps_processing survives m _ _ output)
  have uploads : ∀ target, Keeps (fun v => J v.disk) (Transfer.upload b.localInput b.bucket target) :=
    fun _ => Transfer.keeps_upload (lasting_disk J) (fun _ _ => trivial) (fun v => tidy v.disk) _
  have emits : ∀ e, e.isSent = false → Keeps (fun v => J v.disk) (Run.emit e) :=
    fun e _ => (lasting_disk J).emit e trivial
  have waits : ∀ job, Keeps (fun v => J v.disk) (b.wait job patience) :=
    fun job => keeps_wait emits (fun _ _ _ hv => hv) b job patience
  have downloads : ∀ stem, Keeps (fun v => J v.disk) (Transfer.download b.localOutput b.bucket stem) :=
    keeps_download emits (fun _ => Run.keeps_files_of (survives.makePath (fun _ _ => trivial) trivial))
      (fun _ _ => Run.keeps_files_of (survives.write trivial _)) _ _
  have run : Takes (fun v => J v.disk) (fun _ v => K v.disk) (fun v => K v.disk) b.start := by
    refine (before expands).bind (fun _ => (before path).bind (fun path => ?_))
    refine (before (keeps_note_disk _)).bind (fun _ => (before (uploads _)).bind (fun _ => ?_))
    refine (before (keeps_note_disk _)).bind (fun _ => (before (b.keeps_create _ _)).bind (fun job => ?_))
    refine (before (waits job)).bind (fun _ => (before (keeps_note_disk _)).bind (fun _ => ?_))
    refine (before (downloads _)).bind (fun _ => (before reverts).bind (fun _ => ?_))
    refine (before (keeps_note_disk _)).bind (fun _ => (Takes.final_iff.mpr cleans).bind (fun _ => ?_))
    exact after (Keeps.bind (keeps_note_disk _) (fun _ => Keeps.bind (keeps_link b job) (fun _ =>
      Keeps.bind (keeps_note_disk _) (fun _ => keeps_note_disk _))))
  exact Takes.final_iff.mp run w h

end Surviving

theorem cleanUp_apart {b : Batch} {v : World} {base place : Place} (leads : Leads v.disk b.base base)
    (apart : Apart place (base ++ [".tmp_processed"])) (r : Place) :
    (final (b.cleanUp v)).disk.tree.node? (place ++ r) = v.disk.tree.node? (place ++ r) := by
  let lost : Place → Prop := fun q => base ++ [".tmp_processed"] <+: q
  have within : ∀ q, Covers v.disk b.scratch q → lost q := by
    rintro q ⟨p, entry, below⟩
    obtain ⟨x, found⟩ := entry?_eq_some.mp entry
    have here : p = base ++ [".tmp_processed"] := leads.entry proper_tmp found
    rwa [here] at below
  have note : ∀ n, Keeps (fun w : World => Pruned v.disk w.disk lost) (Run.note n) :=
    keeps_note_disk (J := fun d => Pruned v.disk d lost)
  have keeps : Keeps (fun w : World => Pruned v.disk w.disk lost) b.cleanUp :=
    b.keeps_cleanUp note (Run.keeps_files_of (keeps_removeTree within))
  rcases (keeps v (Pruned.refl _ _)).rest (place ++ r) with same | ⟨_, within⟩
  · exact same
  · exact absurd within (apart.append r).2

theorem start_keptIn {b : Batch} {w : World} (genuine : w.disk.Genuine) {base place : Place}
    (leads : Leads w.disk b.base base) (apart : Apart place (base ++ [".tmp_processed"])) :
    KeptIn place w.disk (final (b.start w)).disk := by
  refine b.start_leads (survives_kept w.disk) (fun d hd => hd.1.sound.tree.tidy)
    (fun d hd r x hx => hd.2.nodes _ x hx) (fun v hv r x hx => ?_) ⟨genuine, Kept.refl _⟩
  rw [cleanUp_apart (hv.2.leads leads) apart]
  exact hv.2.nodes _ x hx

end Batch

/-! ### What preprocessing reads -/

/-- The path leads to a place in the area. -/
def Files.Enters (d : Disk) (area : Place) (path : String) : Prop := ∃ p ∈ placeOf? d path, area <+: p

instance (d : Disk) (area : Place) (path : String) : Decidable (Enters d area path) :=
  inferInstanceAs (Decidable (∃ p ∈ placeOf? d path, area <+: p))

def Processing.watchedFile (area : Place) (alarm : Stop) (m : Macros) (dir : Direction)
    (input output below name : String) : Run Unit := do
  if Enters (← Run.disk) area (join (join input below) name) then throw alarm
  else processFile m dir input output below name

def Processing.watchedTree (area : Place) (alarm : Stop) (m : Macros) (dir : Direction)
    (input output : String) : Run Unit :=
  Run.walkAll (fun top names =>
    names.forM (watchedFile area alarm m dir input output (relative top input))) input

theorem Processing.agree_watchedTree {I : World → Prop} {area : Place} {alarm : Stop} {m : Macros}
    {dir : Direction} {input output : String} (tidy : ∀ w, I w → w.disk.tree.Tidy)
    (keeps : ∀ ns n, AllProper ns → Proper n →
      Keeps I (processFile m dir input output (relative (extend input ns) input) n))
    (quiet : ∀ w ns n, I w → AllProper ns → Proper n →
      ¬ Enters w.disk area (join (join input (relative (extend input ns) input)) n)) :
    Agree I (processTree m dir input output) (watchedTree area alarm m dir input output) := by
  unfold processTree watchedTree Run.walkAll
  refine Agree.ite (fun _ => Agree.refl _) (fun _ => ?_)
  refine Run.agree_walk (V := Below input) (N := Proper) (fun w s n hw => list_proper (tidy w hw))
    (fun s n => Below.join) ?_ ?_ _ (Below.refl input)
  · rintro _ names ⟨ns, hns, rfl⟩ hn
    exact Keeps.forM names (fun n hm => keeps ns n hns (hn n hm))
  · rintro _ names ⟨ns, hns, rfl⟩ hn
    refine Agree.forM names (fun n hm => keeps ns n hns (hn n hm)) (fun n hm w hw => ?_)
    rw [watchedFile, bind_ok (Run.disk_apply w), if_neg (quiet w ns n hw hns (hn n hm))]

namespace Batch

/-- Preprocessing that raises an alarm before it reads a file in the area. -/
def watchedPreprocess (b : Batch) (area : Place) (alarm : Stop) : Run Unit :=
  match b.macros with
  | none => pure ()
  | some m => do
    Run.note .preprocessingStarted
    let d ← Run.disk
    Processing.watchedTree area alarm m .expand (d.absolute b.input) (d.absolute b.localInput)

/-- In their absolute form the paths lead where they lead as they are given, and there are no links in
the input directory, nor at or in the scratch directory. -/
structure Direct (b : Batch) (d : Disk) (place base : Place) : Prop where
  input : Leads d (d.absolute b.input) place
  parent : Leads d (d.absolute b.base) base
  inputUnlinked : Unlinked d.tree place
  scratchUnlinked : Unlinked d.tree (base ++ [".tmp_processed"])

theorem leads_root {d : Disk} {r r' : String} (hr : IsRoot r) (hr' : IsRoot r') {ns : List String}
    (hns : AllProper ns) {p : Place} (h : Leads d (extend r ns) p) : Leads d (extend r' ns) p := by
  obtain ⟨j, way⟩ := h
  refine ⟨j, ?_⟩
  rw [startFrom, isAbsolute_extend hns, parts_extend hns, hr.isAbsolute, hr.parts] at way
  rwa [startFrom, isAbsolute_extend hns, parts_extend hns, hr'.isAbsolute, hr'.parts]

theorem along_tmp {ms : List String} (h : Along [".tmp_processed", "input"] ms) (nonempty : ms ≠ []) :
    [".tmp_processed"] <+: ms := by
  obtain ⟨m, ms, rfl⟩ := List.exists_cons_of_ne_nil nonempty
  have first : m = ".tmp_processed" := by
    rcases h.2 with along | along
    · exact (List.cons_prefix_cons.mp along).1
    · exact (List.cons_prefix_cons.mp along).1.symm
  rw [first]
  exact List.cons_prefix_cons.mpr ⟨rfl, List.nil_prefix⟩

section Direct

variable {b : Batch} {d : Disk} (sound : d.Sound) (noNul : '\x00' ∉ b.input.toList)
  (named : Proper (name b.input)) {place base : Place} (h : b.Direct d place base)
include sound noNul named h

theorem Direct.approach (macros : b.macros.isSome = true) :
    ∃ s, b.Approach d s base [".tmp_processed", "input"] := by
  have here := sound.tree.proper _ _ sound.here
  have noNul' : '\x00' ∉ b.base.toList := fun hm => noNul (mem_of_mem_parent hm)
  have inner : AllProper [".tmp_processed", "input"] := by decide
  obtain ⟨r, hr, input⟩ := absolute_eq here noNul
  obtain ⟨r', hr', outgoing⟩ := absolute_eq (s := extend b.base [".tmp_processed", "input"]) here
    (by rwa [nul_mem_extend inner])
  obtain ⟨r'', hr'', above⟩ := absolute_eq here noNul'
  have proper := allProper_formalPlace here noNul'
  have leads := h.parent
  rw [above] at leads
  refine ⟨extend r' (formalPlace d.here b.base), ⟨?_, ?_, ⟨?_, hr'.trimmed.extend proper,
    leads_root hr'' hr' proper leads, ?_⟩, inner, by simp⟩⟩
  · have whole : formalPlace d.here b.input = formalPlace d.here b.base ++ [name b.input] := by
      rw [formalPlace, parts_parent, named.parts, formal_append, formal_names named.single, formalPlace,
        Batch.base, startFrom, startFrom, isAbsolute_parent]
    rw [input, whole]
    exact named_extend (proper.concat named) (by simp)
  · rw [outgoing_eq macros, outgoing, formalPlace_extend _ _ inner, extend_append]
  · exact extend_ne_empty hr'.ne_empty proper
  · intro ms target along nonempty there
    obtain ⟨ks, rfl⟩ := along_tmp along nonempty
    rw [← List.append_assoc] at there
    exact h.scratchUnlinked ks target there

theorem Direct.not_enters (macros : b.macros.isSome = true)
    (apart : Apart place (base ++ [".tmp_processed"])) {e : Disk} (tended : b.Tended d e)
    {ns : List String} (hns : AllProper ns) (nonempty : ns ≠ []) :
    ¬ Enters e (base ++ [".tmp_processed"]) (extend (d.absolute b.input) ns) := by
  rintro ⟨p, there, inside⟩
  obtain ⟨s, approach⟩ := h.approach sound noNul named macros
  have straight : b.Straight d (base ++ [".tmp_processed"]) := ⟨s, base, _, approach, by simp⟩
  have leads := tended.kept.leads h.input
  have within : p = place ++ ns := by
    obtain ⟨x, found⟩ : ∃ x, e.find true (extend (d.absolute b.input) ns) = .ok (.node p x) := by
      unfold placeOf? at there
      split at there
      · next q x found =>
        cases there
        exact ⟨x, found⟩
      · cases there
    obtain ⟨j, same⟩ := leads.follow_extend hns nonempty
    rw [(find_eq_follow found true).2, same] at found
    refine ((finds_of_follow found).unlinked hns (leads.directory tended.genuine.sound) ?_).1
    intro ms _ _ target link
    rw [tended.node?_apart straight apart] at link
    exact h.inputUnlinked ms target link
  rw [within] at inside
  exact (apart.append ns).2 inside

theorem Direct.agree_watched (apart : Apart place (base ++ [".tmp_processed"])) (alarm : Stop) :
    Agree (fun w : World => b.Tended d w.disk) b.preprocess
      (b.watchedPreprocess (base ++ [".tmp_processed"]) alarm) := by
  have quiet := fun macros {e} => h.not_enters sound noNul named macros apart (e := e)
  have approach := h.approach sound noNul named
  unfold preprocess watchedPreprocess
  cases expands : b.macros with
  | none => exact Agree.refl _
  | some m =>
    rw [expands] at quiet approach
    obtain ⟨s, approach⟩ := approach rfl
    refine Agree.bind (Run.keeps_emit (fun _ hw => hw)) (Agree.refl _) (fun _ => ?_)
    refine Run.agree_disk (fun w hw => ?_)
    have here := hw.kept.here
    refine Processing.agree_watchedTree (fun v hv => hv.genuine.sound.tree.tidy)
      (fun ns n hns hn => b.keeps_expandFile m here hns hn) (fun v ns n hv hns hn => ?_) w hw
    rw [show w.disk.absolute b.input = d.absolute b.input by rw [Disk.absolute, Disk.absolute, here],
      approach.below_eq hns, join_joined_name hns hn]
    exact quiet rfl hv (hns.concat hn) (by simp)

theorem Direct.preprocess_rest {w : World} (genuine : w.disk.Genuine) (disk : w.disk = d) {q : Place}
    (outside : ¬ base ++ [".tmp_processed"] <+: q) :
    (final (b.preprocess w)).disk.tree.node? q = d.tree.node? q := by
  subst disk
  cases expands : b.macros with
  | none => rw [preprocess, expands]; rfl
  | some m =>
    obtain ⟨s, approach⟩ := h.approach sound noNul named (by rw [expands]; rfl)
    refine ((b.preprocess_tended genuine).confined _ _ _ approach).rest q ?_
    rintro ms along nonempty rfl
    exact outside ((List.prefix_append_right_inj base).mpr (along_tmp along nonempty))

end Direct

/-- An accepted input path leads to a directory, through the one that the scratch directory stands in.
If it does not end at a link, the two directories are apart just when it ends in a proper name that is
not the scratch directory's own. And if they are apart, a run takes nothing from the input directory;
preprocessing writes in the scratch directory alone and reads nothing there, unless links lead
elsewhere. -/
theorem scratch_beside_input {b : Batch} {given : String} {w w' : World} (genuine : w.disk.Genuine)
    (accepted : PathCheck.directory given w = .ok b.input w') :
    ∃ place base, w.disk.find true b.input = .ok (.node place .directory) ∧ Leads w.disk b.base base ∧
      (∀ r, w.disk.find false b.scratch = .ok r → r.place = base ++ [".tmp_processed"]) ∧
      (w.disk.isLink b.input = false → (Apart place (base ++ [".tmp_processed"]) ↔
        Proper (name b.input) ∧ name b.input ≠ ".tmp_processed")) ∧
      (Apart place (base ++ [".tmp_processed"]) →
        KeptIn place w.disk (final (b.start w)).disk ∧
        (b.Direct w.disk place base →
          (∀ q, ¬ base ++ [".tmp_processed"] <+: q →
            (final (b.preprocess w)).disk.tree.node? q = w.disk.tree.node? q) ∧
          ∀ alarm, b.watchedPreprocess (base ++ [".tmp_processed"]) alarm w = b.preprocess w)) := by
  obtain ⟨place, found⟩ := found_of_isDirectory (PathCheck.directory_ok accepted)
  obtain ⟨base, leads, improper, unlinked⟩ := leads_through found
  obtain ⟨noNul, _⟩ := find_eq_follow found true
  have named : Apart place (base ++ [".tmp_processed"]) → Proper (name b.input) := by
    intro apart
    by_contra none
    exact apart.1 ((improper none).trans (List.prefix_append _ _))
  refine ⟨place, base, found, leads, fun r => leads.entry proper_tmp,
    fun plain => ⟨fun apart => ?_, ?_⟩, fun apart => ⟨start_keptIn genuine leads apart,
      fun direct => ⟨fun q outside => ?_, fun alarm => ?_⟩⟩⟩
  · refine ⟨named apart, fun same => apart.1 ?_⟩
    have here : place = base ++ [".tmp_processed"] := by rw [unlinked (named apart) plain, same]
    exact here ▸ List.prefix_refl place
  · rintro ⟨proper, distinct⟩
    rw [unlinked proper plain]
    exact apart_siblings base distinct
  · exact direct.preprocess_rest genuine.sound noNul (named apart) genuine rfl outside
  · exact (direct.agree_watched genuine.sound noNul (named apart) apart alarm w
      (Tended.refl b genuine)).symm

/-- An input directory beside the scratch directory of an earlier run. -/
def visited : Tree :=
  ⟨[(["w"], .directory), (["w", "in"], .directory), (["w", "in", "a.sql"], .file [0x78]),
    (["w", ".tmp_processed"], .directory), (["w", ".tmp_processed", "b.sql"], .file [0x79])]⟩

theorem unlinked_visited (p : Place) : Unlinked visited p := by
  intro q target there
  simpa [visited] using Tree.mem_entries_of_link there

theorem scratch_beside_input_visited :
    PathCheck.directory "./in" (quiet visited) = .ok sample.input (quiet visited) ∧
      (∀ alarm, sample.watchedPreprocess ["w", ".tmp_processed"] alarm (quiet visited) =
        sample.preprocess (quiet visited)) ∧
      ∃ content, (final (sample.start (quiet visited))).disk.tree.node? ["w", "in", "a.sql"] =
        some (.file content) := by
  have genuine : (quiet visited).disk.Genuine :=
    ⟨⟨Tree.sound_of_entries (by decide) (by decide), rfl⟩,
      fun p target there => absurd there (unlinked_visited [] p target)⟩
  have accepted : PathCheck.directory "./in" (quiet visited) = .ok sample.input (quiet visited) := rfl
  have input : (quiet visited).disk.find true sample.input = .ok (.node ["w", "in"] .directory) := by
    decide
  have parent : Leads (quiet visited).disk sample.base ["w"] := ⟨_, .done _ _⟩
  obtain ⟨place, base, found, leads, _, apart, kept⟩ := scratch_beside_input genuine accepted
  obtain rfl : ["w"] = base := parent.unique leads
  obtain rfl : ["w", "in"] = place := by
    rw [input] at found
    cases found
    rfl
  have direct : sample.Direct (quiet visited).disk ["w", "in"] ["w"] :=
    ⟨leads_of_find (by decide), leads_of_find (by decide), unlinked_visited _,
      unlinked_visited _⟩
  obtain ⟨keptIn, reads⟩ := kept ((apart (by decide)).mpr (by decide))
  refine ⟨accepted, (reads direct).2, ?_⟩
  rcases keptIn ["a.sql"] _ rfl with same | ⟨_, content, _, changed⟩
  · exact ⟨_, same⟩
  · exact ⟨content, changed⟩

/-- A dot is accepted, though the scratch directory is in the directory that it stands for: what an
earlier run has left there is read again. So is the name of the scratch directory, and then the input goes
with it. -/
theorem scratch_within_input :
    let left : Tree := ⟨[(["w"], .directory), (["w", ".tmp_processed"], .directory),
      (["w", ".tmp_processed", "b.sql"], .file [0x79])]⟩
    PathCheck.directory "." (quiet left) = .ok "." (quiet left) ∧
      (∃ v, { sample with input := ".", macros := some [] }.preprocess (quiet left) = .ok () v ∧
        v.disk.tree.node? ["w", ".tmp_processed", "input", ".tmp_processed", "b.sql"] =
          some (.file [0x79])) ∧
      PathCheck.directory ".tmp_processed" (quiet left) = .ok ".tmp_processed" (quiet left) ∧
      ∃ v, { sample with input := ".tmp_processed", macros := none }.start (quiet left) = .ok () v ∧
        v.disk.tree.node? ["w", ".tmp_processed", "b.sql"] = none := by
  intro left
  obtain ⟨_, v, expanded, again⟩ := ok_of_run' (s := quiet left) (b := some (.file [0x79]))
    (x := { sample with input := ".", macros := some [] }.preprocess)
    (f := fun v => v.disk.tree.node? ["w", ".tmp_processed", "input", ".tmp_processed", "b.sql"])
    (by decide +kernel)
  obtain ⟨_, u, run, gone⟩ := ok_of_run' (s := quiet left) (b := none)
    (x := { sample with input := ".tmp_processed", macros := none }.start)
    (f := fun v => v.disk.tree.node? ["w", ".tmp_processed", "b.sql"]) (by decide +kernel)
  exact ⟨rfl, ⟨v, expanded, again⟩, rfl, u, run, gone⟩

end Batch

end SqlMigration
