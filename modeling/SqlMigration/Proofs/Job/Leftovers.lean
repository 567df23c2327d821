import SqlMigration.Proofs.Job.Paired
import SqlMigration.Proofs.Job.Pipeline

/-!
# What earlier runs have left behind

A run reads and writes below the input directory, the output directory and the
two directories of the scratch directory. Whatever else earlier runs have left in
the scratch directory is out of its sight: two runs that differ only there do the
same. What was left in the two directories is not out of sight.
-/

set_option autoImplicit false

namespace SqlMigration.Batch

open SqlMigration.Path Files Effect

/-! ### What a job looks at -/

/-- Places in a scratch directory, but not in one of the two directories of a job. -/
def Leftover (scratch q : Place) : Prop :=
  scratch <+: q ∧ q ≠ scratch ∧ ¬ scratch ++ ["input"] <+: q ∧ ¬ scratch ++ ["output"] <+: q

instance (scratch q : Place) : Decidable (Leftover scratch q) :=
  inferInstanceAs (Decidable (_ ∧ _ ∧ _ ∧ _))

def areas (b : Batch) (here : Place) : List Place :=
  formalPlace here b.input :: (b.scratchPlace here ++ ["input"]) ::
    (b.scratchPlace here ++ ["output"]) :: (b.output.path?.map (formalPlace here)).toList

/-- Places on the way along the input path, on the way to a directory that the job works in, and below
such a directory. -/
def InSight (b : Batch) (here q : Place) : Prop :=
  (∃ ms, ms <+: parts b.input ∧ q = formal (startFrom here b.input) ms) ∨
    ∃ a ∈ b.areas here, q <+: a ∨ a <+: q

/-- The scratch directory is apart from the directories of the user, and the input path does not lead
through it. -/
structure Secluded (b : Batch) (here : Place) : Prop where
  macros : b.macros.isSome = true
  proper : AllProper here
  noNul : '\x00' ∉ b.input.toList
  noNul' : ∀ o, b.output = .path o → '\x00' ∉ o.toList
  way : ∀ ms, ms <+: parts b.input → ¬ b.scratchPlace here <+: formal (startFrom here b.input) ms
  input : Apart (b.scratchPlace here) (formalPlace here b.input)
  output : ∀ o, b.output = .path o → Apart (b.scratchPlace here) (formalPlace here o)

theorem Leftover.apart {scratch q a : Place} (h : Leftover scratch q) (ha : Apart scratch a) :
    Apart q a := by
  obtain ⟨ns, rfl⟩ := h.1
  exact ha.append ns

theorem Leftover.apart_inner {scratch q : Place} (h : Leftover scratch q) {n : String}
    (out : ¬ scratch ++ [n] <+: q) : Apart q (scratch ++ [n]) := by
  refine ⟨fun hq => ?_, out⟩
  rcases List.prefix_concat_iff.mp hq with rfl | hq
  · exact out (List.prefix_refl _)
  · exact h.2.1 (hq.eq_of_length_le h.1.length_le)

section Zone

variable {b : Batch} {here : Place} (h : b.Secluded here)
include h

theorem Secluded.apart_areas {q a : Place} (hq : Leftover (b.scratchPlace here) q)
    (ha : a ∈ b.areas here) : Apart q a := by
  simp only [areas, List.mem_cons] at ha
  rcases ha with e | e | e | ha
  · rw [e]
    exact hq.apart h.input
  · rw [e]
    exact hq.apart_inner hq.2.2.1
  · rw [e]
    exact hq.apart_inner hq.2.2.2
  · cases ho : b.output with
    | blank =>
      rw [ho] at ha
      cases ha
    | path o =>
      rw [ho] at ha
      rw [List.mem_singleton.mp ha]
      exact hq.apart (h.output o ho)

def Secluded.zone : Zone where
  hidden := Leftover (b.scratchPlace here)
  near q := AllProper q ∧ b.InSight here q
  apart := by
    rintro q ⟨_, ⟨ms, hm, e⟩ | ⟨a, ha, near⟩⟩ hidden
    · rw [e] at hidden
      exact h.way ms hm hidden.1
    · obtain ⟨below, above⟩ := h.apart_areas hidden ha
      exact near.elim below above
  proper := fun _ near => near.1

/-! ### The directories of a job are near -/

theorem Secluded.proper_scratch : AllProper (b.scratchPlace here) := by
  have nil : AllProper [] := fun _ hn => nomatch hn
  have noNul := noNul_scratch h.noNul nil
  rw [← scratch_eq] at noNul
  exact allProper_formalPlace h.proper noNul

theorem Secluded.near_area {q a : Place} (proper : AllProper q) (ha : a ∈ b.areas here)
    (hq : q <+: a ∨ a <+: q) : h.zone.near q :=
  ⟨proper, Or.inr ⟨a, ha, hq⟩⟩

theorem Secluded.ground_absolute {s : String} (noNul : '\x00' ∉ s.toList)
    (ha : formalPlace here s ∈ b.areas here) (hne : formalPlace here s ≠ []) :
    ∃ top, (∀ d : Disk, d.here = here → d.absolute s = top) ∧
      Ground h.zone here top (formalPlace here s) :=
  exists_ground h.proper noNul hne (fun _ proper along => h.near_area proper ha along)

theorem Secluded.ground_scratch {n : String} (hn : Proper n)
    (ha : b.scratchPlace here ++ [n] ∈ b.areas here) :
    Ground h.zone here (extend b.base [".tmp_processed", n]) (b.scratchPlace here ++ [n]) := by
  have one : AllProper [n] := hn.single
  have two : AllProper [".tmp_processed", n] := by
    intro m hm
    rcases List.mem_cons.mp hm with rfl | hm
    · exact proper_tmp
    · exact one m hm
  have up : b.scratchPlace here ++ [n] = formalPlace here b.base ++ [".tmp_processed", n] := by
    rw [← scratchPlace_extend b here one, formalPlace_extend _ _ two]
  refine ⟨named_extend two (by simp), scratchPlace_extend b here one, ?_, ?_⟩
  · rw [Safe, startFrom, isAbsolute_extend two, parts_extend two]
    intro ms hm
    rcases List.prefix_or_prefix_of_prefix hm (List.prefix_append (parts b.base) _) with hp | hp
    · -- on the way along the input path
      have along : ms <+: parts b.input := by
        rw [parts_parent]
        exact hp.trans (List.prefix_append _ _)
      rw [base, isAbsolute_parent]
      exact ⟨allProper_way h.proper h.noNul along, Or.inl ⟨ms, along, rfl⟩⟩
    · -- on the way to the directory
      obtain ⟨ks, rfl⟩ := hp
      have rest := (List.prefix_append_right_inj (parts b.base)).mp hm
      have proper : AllProper ks := fun m hm => two m (rest.subset hm)
      have whole : AllProper (formalPlace here b.base ++ [".tmp_processed", n]) := by
        rw [← up]
        exact h.proper_scratch.append one
      have below : formalPlace here b.base ++ ks <+: b.scratchPlace here ++ [n] := by
        rw [up]
        exact (List.prefix_append_right_inj _).mpr rest
      rw [formal_append, formal_names proper]
      exact h.near_area (whole.left.append proper) ha (Or.inl below)
  · exact fun ns hns => h.near_area ((h.proper_scratch.append one).append hns) ha
      (Or.inr (List.prefix_append _ ns))

omit h in
theorem input_mem_areas (b : Batch) (here : Place) : formalPlace here b.input ∈ b.areas here :=
  List.mem_cons_self

omit h in
theorem outgoing_mem_areas (b : Batch) (here : Place) :
    b.scratchPlace here ++ ["input"] ∈ b.areas here :=
  List.mem_cons_of_mem _ List.mem_cons_self

omit h in
theorem incoming_mem_areas (b : Batch) (here : Place) :
    b.scratchPlace here ++ ["output"] ∈ b.areas here :=
  List.mem_cons_of_mem _ (List.mem_cons_of_mem _ List.mem_cons_self)

omit h in
theorem output_mem_areas {b : Batch} (here : Place) {o : String} (ho : b.output = .path o) :
    formalPlace here o ∈ b.areas here := by
  simp [areas, ho, Given.path?]

/-! ### The stages of a job -/

variable {path : String}

theorem Secluded.ground_outgoing : ∃ top, (∀ d : Disk, d.here = here → d.absolute b.localInput = top) ∧
    Ground h.zone here top (b.scratchPlace here ++ ["input"]) := by
  have one : AllProper ["input"] := proper_input.single
  have place := scratchPlace_extend b here one
  rw [outgoing_eq h.macros, ← place]
  refine h.ground_absolute (noNul_scratch h.noNul one) ?_ ?_
  · rw [place]
    exact outgoing_mem_areas b here
  · rw [place]
    simp

theorem Secluded.ground_incoming :
    ∃ top, (∀ d : Disk, d.here = here → d.absolute b.scratchOutput = top) ∧
      Ground h.zone here top (b.scratchPlace here ++ ["output"]) := by
  have one : AllProper ["output"] := proper_output.single
  have place := scratchPlace_extend b here one
  rw [incoming_eq, ← place]
  refine h.ground_absolute (noNul_scratch h.noNul one) ?_ ?_
  · rw [place]
    exact incoming_mem_areas b here
  · rw [place]
    simp

theorem Secluded.preprocess :
    Parallel (Paired b h.zone here path) b.preprocess b.preprocess := by
  obtain ⟨m, hm⟩ := Option.isSome_iff_exists.mp h.macros
  have hne : formalPlace here b.input ≠ [] := by
    intro nil
    have apart := h.input.2
    rw [nil] at apart
    exact apart List.nil_prefix
  obtain ⟨top, hi, ground⟩ := h.ground_absolute h.noNul (input_mem_areas b here) hne
  obtain ⟨out, ho, target⟩ := h.ground_outgoing
  rw [Batch.preprocess, hm]
  exact Parallel.bind (Paired.note _) (fun _ => Paired.processDirectory hi ground ho target m .expand)

theorem Secluded.postprocess :
    Parallel (Paired b h.zone here path) b.postprocess b.postprocess := by
  obtain ⟨m, hm⟩ := Option.isSome_iff_exists.mp h.macros
  obtain ⟨top, hi, ground⟩ := h.ground_incoming
  rw [Batch.postprocess, hm]
  refine Parallel.bind (Paired.note _) (fun _ => ?_)
  cases output : b.output with
  | blank => exact fun w v paired => .error _ paired
  | path o =>
    have hne : formalPlace here o ≠ [] := by
      intro nil
      have apart := (h.output o output).2
      rw [nil] at apart
      exact apart List.nil_prefix
    obtain ⟨out, ho, target⟩ :=
      h.ground_absolute (h.noNul' o output) (output_mem_areas here output) hne
    simp only [Given.needed, pure_bind]
    exact Paired.processDirectory hi ground ho target m .revert

theorem Secluded.cleanUp : Parallel (Paired b h.zone here path) b.cleanUp b.cleanUp := by
  have safe : Safe h.zone here b.scratch := by
    have inner := (h.ground_scratch proper_input (outgoing_mem_areas b here)).safe.parent
    rwa [extend_cons, extend_cons, extend_nil, parent_join (named_join proper_tmp).trimmed proper_input]
      at inner
  unfold Batch.cleanUp
  refine Paired.disk_bind (fun d e twin => ?_)
  rw [twin.exists_eq safe]
  refine Parallel.ite (fun _ => ?_) (fun _ => Parallel.pure _)
  exact Parallel.bind (Paired.note _) (fun _ =>
    Parallel.bind (Paired.files (parallel_removeTree safe)) (fun _ => Paired.note _))

theorem Secluded.start (hp : path ≠ "") (relative : isAbsolute path = false) :
    Parallel (Paired b h.zone here path) b.start b.start := by
  obtain ⟨top, habs, ground⟩ := h.ground_outgoing
  have safe := (h.ground_scratch proper_input (outgoing_mem_areas b here)).safe
  rw [← outgoing_eq h.macros] at safe
  have target := h.ground_scratch proper_output (incoming_mem_areas b here)
  rw [← incoming_eq] at target
  have back : b.localOutput = .path b.scratchOutput := if_pos h.macros
  refine Parallel.bind h.preprocess (fun _ => ?_)
  refine Paired.storagePath_bind (Parallel.bind (Paired.note _) (fun _ => ?_))
  refine Parallel.bind (Paired.upload safe habs ground) (fun _ => ?_)
  refine Parallel.bind (Paired.note _) (fun _ => ?_)
  refine Parallel.bind (Paired.create _ _ (fun c plain s neat => neat.act plain hp relative))
    (fun job => ?_)
  refine Parallel.bind (Paired.wait job patience) (fun _ => ?_)
  refine Parallel.bind (Paired.note _) (fun _ => ?_)
  rw [back]
  refine Parallel.bind (Paired.download target) (fun _ => ?_)
  refine Parallel.bind h.postprocess (fun _ => ?_)
  refine Parallel.bind (Paired.note _) (fun _ => ?_)
  refine Parallel.bind h.cleanUp (fun _ => ?_)
  refine Parallel.bind (Paired.note _) (fun _ => ?_)
  refine Parallel.bind (Paired.link job) (fun _ => ?_)
  exact Parallel.bind (Paired.note _) (fun _ => Paired.note _)

end Zone

/-! ### Leftovers make no difference -/

/-- Two worlds that differ in leftovers only. -/
structure DifferOnly (scratch : Place) (w v : World) : Prop where
  here : v.disk.here = w.disk.here
  tree : ∀ q, ¬ Leftover scratch q → w.disk.tree.node? q = v.disk.tree.node? q
  rest : v = { w with disk := v.disk }

/-- There are no links in sight, and no object that starts with the path of the job has, or gets from
the service, a name that is not like a file's. -/
structure Plain (b : Batch) (w : World) : Prop where
  sound : w.disk.Sound
  unlinked : ∀ q target, b.InSight w.disk.here q → w.disk.tree.node? q ≠ some (.link target)
  neat : w.storage.Neat b.bucket (b.storagePath w.now w.uuid)
  extras : ∀ c, w.service.converter = some c → c.PlainExtras

theorem start_ignores_leftovers {b : Batch} {w v : World} (secluded : b.Secluded w.disk.here)
    (plain : b.Plain w) (sound : v.disk.Sound) (h : DifferOnly (b.scratchPlace w.disk.here) w v) :
    Alike (DifferOnly (b.scratchPlace w.disk.here)) (b.start w) (b.start v) := by
  have twin : Twin secluded.zone w.disk.here w.disk v.disk :=
    { left := rfl
      right := h.here
      tidy := plain.sound.tree.tidy
      tidy' := sound.tree.tidy
      agree := h.tree
      unlinked := fun q target near => plain.unlinked q target near.2 }
  have paired : Paired b secluded.zone w.disk.here (b.storagePath w.now w.uuid) w v :=
    ⟨twin, h.rest, rfl, plain.neat, plain.extras⟩
  have alike := secluded.start (storagePath_ne_empty b w.now w.uuid)
    (storagePath_relative b w.now w.uuid) w v paired
  refine alike.imp (fun s t paired => ⟨?_, paired.disk.agree, paired.rest⟩)
  rw [paired.disk.left, paired.disk.right]

/-! ### A sample -/

theorem secluded_sample : sample.Secluded ["w"] where
  macros := rfl
  proper := by decide
  noNul := by decide
  noNul' := by
    intro o ho
    cases ho
    decide
  way := by
    intro ms hm
    have parts : parts sample.input = ["in"] := by decide
    rw [parts] at hm
    rcases List.prefix_cons_iff.mp hm with rfl | ⟨ks, rfl, hk⟩
    · decide
    · rw [List.prefix_nil.mp hk]
      decide
  input := by decide
  output := by
    intro o ho
    cases ho
    decide

theorem plain_sample {t : Tree} (sound : t.Sound) (here : t.node? ["w"] = some .directory)
    (unlinked : ∀ q target, t.node? q ≠ some (.link target)) : sample.Plain (quiet t) where
  sound := ⟨sound, here⟩
  unlinked := fun q target _ => unlinked q target
  neat := by
    intro name there below
    obtain ⟨o, ho, rfl⟩ := List.mem_map.mp there
    rw [(served_sample t).unused o ho] at below
    cases below
  extras := by
    intro c hc
    cases hc
    exact fun e he => nomatch he

def idle : Tree :=
  ⟨[(["w"], .directory), (["w", "in"], .directory), (["w", ".tmp_processed"], .directory),
    (["w", ".tmp_processed", "input"], .directory), (["w", ".tmp_processed", "output"], .directory)]⟩

def littered (q : Place) : Tree := idle.put (["w", ".tmp_processed"] ++ q) (.file [0x78])

def busy : Tree := idle.put ["w", "in", "a.sql"] (.file [0x78])

theorem plain_busy : sample.Plain (quiet busy) := by
  refine plain_sample (Tree.sound_of_entries (by decide) (by decide)) rfl ?_
  intro q target there
  by_cases hq : q = []
  · rw [hq] at there
    cases there
  · have := Tree.mem_entries hq there
    simp [busy, idle, Tree.put, Table.put] at this

theorem start_ignores_leftovers_note :
    DifferOnly ["w", ".tmp_processed"] (quiet busy)
        (quiet (busy.put ["w", ".tmp_processed", "note"] (.file [0x78]))) ∧
      Alike (DifferOnly ["w", ".tmp_processed"]) (sample.start (quiet busy))
        (sample.start (quiet (busy.put ["w", ".tmp_processed", "note"] (.file [0x78])))) := by
  have differ : DifferOnly ["w", ".tmp_processed"] (quiet busy)
      (quiet (busy.put ["w", ".tmp_processed", "note"] (.file [0x78]))) := by
    refine ⟨rfl, fun q hq => (Tree.node?_put_of_ne ?_).symm, rfl⟩
    rintro rfl
    exact hq (by decide)
  have sound : (busy.put ["w", ".tmp_processed", "note"] (.file [0x78])).Sound :=
    Tree.sound_of_entries (by decide) (by decide)
  have place : sample.scratchPlace (quiet busy).disk.here = ["w", ".tmp_processed"] := by decide
  have same := start_ignores_leftovers (w := quiet busy)
    (v := quiet (busy.put ["w", ".tmp_processed", "note"] (.file [0x78]))) secluded_sample
    plain_busy ⟨sound, rfl⟩
  rw [place] at same
  exact ⟨differ, same differ⟩

/-- A file in one of the two directories comes out. -/
theorem start_delivers_leftovers :
    (∃ w', sample.start (quiet idle) = .ok () w' ∧
      w'.disk.tree.node? ["w", "out", "x", "old.sql"] = none) ∧
    ∀ n ∈ ["input", "output"],
      (∀ q, ¬ ["w", ".tmp_processed"] <+: q → idle.node? q = (littered [n, "old.sql"]).node? q) ∧
      ∃ w', sample.start (quiet (littered [n, "old.sql"])) = .ok () w' ∧
        w'.disk.tree.node? ["w", "out", "x", "old.sql"] = some (.file [0x78]) := by
  have ran : ∀ {t : Tree} {x : Option Node}, EStateM.run' (do
        sample.start
        return (← get).disk.tree.node? ["w", "out", "x", "old.sql"]) (quiet t) = some x →
      ∃ w', sample.start (quiet t) = .ok () w' ∧
        w'.disk.tree.node? ["w", "out", "x", "old.sql"] = x := by
    intro t x h
    obtain ⟨_, w', ended, there⟩ := ok_of_run' h
    exact ⟨w', ended, there⟩
  refine ⟨ran (by decide +kernel), fun n hn => ⟨fun q hq => (Tree.node?_put_of_ne ?_).symm, ?_⟩⟩
  · rintro rfl
    exact hq (List.prefix_append _ _)
  · rcases List.mem_pair.mp hn with rfl | rfl
    · exact ran (by decide +kernel)
    · exact ran (by decide +kernel)

end SqlMigration.Batch
