import SqlMigration.Job.Batch
import SqlMigration.Proofs.Files.Setting
import SqlMigration.Proofs.Job.Keeping
import SqlMigration.Proofs.Job.Processing

/-!
# What processing leaves alone

Processing a directory takes nothing from the disk. Where no links are in the way,
all that it changes is on the way to the directory that it writes to, or in it.
-/

set_option autoImplicit false

namespace SqlMigration

open SqlMigration.Path Files Effect

theorem Run.keeps_read (I : World → Prop) (path : String) : Keeps I (Run.files (read path)) := by
  refine Run.keeps_files (fun w hw => ?_)
  have same := Files.keeps_read (fun d => d = w.disk) path w.disk rfl
  dsimp only at same
  rwa [same]

namespace Processing

section Keeping

variable {I : World → Prop} (note : ∀ n, Keeps I (Run.note n))

theorem keeps_readText (path : String) : Keeps I (readText path) := by
  refine Keeps.bind (Run.keeps_read I path) (fun content => ?_)
  cases Utf8.decode content with
  | error f => exact Keeps.throw _
  | ok text => exact Keeps.pure _

theorem keeps_writeText {path : String} (write : ∀ content, Keeps I (Run.files (Files.write path content)))
    (text : Text) : Keeps I (writeText path text) := by
  rw [writeText]
  cases text.encode with
  | ok content => exact write content
  | error stray => exact Keeps.bind (write []) (fun _ => Keeps.throw _)

include note

theorem keeps_processFile (m : Macros) (dir : Direction) {input output below n : String}
    (make : Keeps I (Run.files (makePath (parent (join (join output below) n)))))
    (write : ∀ content, Keeps I (Run.files (Files.write (join (join output below) n) content)))
    (copy : Keeps I (Run.files (Files.copy (join (join input below) n) (join (join output below) n)))) :
    Keeps I (processFile m dir input output below n) := by
  have written := keeps_writeText write
  unfold processFile
  refine Run.keeps_disk_of (fun d => Keeps.ite (fun _ => Keeps.pure _) (fun _ => ?_))
  refine Keeps.bind make (fun _ => ?_)
  refine Run.keeps_disk_of (fun d => Keeps.ite (fun _ => ?_) (fun _ => copy))
  cases dir with
  | expand => exact Keeps.bind (note _) (fun _ => Keeps.bind (keeps_readText _) (fun _ => written _))
  | revert => exact Keeps.bind (note _) (fun _ => Keeps.bind (keeps_readText _) (fun _ => written _))

omit note in
theorem keeps_processTree {V N : String → Prop} {m : Macros} {dir : Direction} {input output : String}
    (listed : ∀ w s n, I w → n ∈ (w.disk.list s).1 ∨ n ∈ (w.disk.list s).2 → N n)
    (next : ∀ s n, V s → N n → V (join s n))
    (each : ∀ s n, V s → N n → Keeps I (processFile m dir input output (relative s input) n))
    (hi : V input) : Keeps I (processTree m dir input output) := by
  unfold processTree
  exact Run.keeps_walkAll listed next
    (fun s names hs hn => Keeps.forM names (fun n h => each s n hs (hn n h))) hi

theorem keeps_processDirectory (files : ∀ action : Action Unit, Keeps I (Run.files action)) (m : Macros)
    (dir : Direction) (input output : String) : Keeps I (processDirectory m dir input output) :=
  Run.keeps_disk_of (fun _ =>
    keeps_processTree (V := fun _ => True) (N := fun _ => True) (fun _ _ _ _ _ => trivial)
      (fun _ _ _ _ => trivial)
      (fun _ _ _ _ => keeps_processFile note m dir (files _) (fun _ => files _) (files _)) trivial)

end Keeping

end Processing

namespace Batch

section Keeping

variable {I : World → Prop} (b : Batch)

theorem keeps_needed (g : Given) : Keeps I g.needed := by
  cases g with
  | path s => exact Keeps.pure _
  | blank => exact Keeps.throw _

theorem keeps_link (job : String) : Keeps I (b.link job) := by
  unfold link
  cases b.link? job with
  | none => exact Keeps.throw _
  | some s => exact Keeps.pure _

variable (note : ∀ n, Keeps I (Run.note n))
include note

theorem keeps_preprocess
    (process : ∀ m, Keeps I (Processing.processDirectory m .expand b.input b.localInput)) :
    Keeps I b.preprocess := by
  unfold preprocess
  cases b.macros with
  | none => exact Keeps.pure _
  | some m => exact Keeps.bind (note _) (fun _ => process m)

theorem keeps_postprocess
    (process : ∀ m output, Keeps I (Processing.processDirectory m .revert b.scratchOutput output)) :
    Keeps I b.postprocess := by
  unfold postprocess
  cases b.macros with
  | none => exact Keeps.pure _
  | some m =>
    exact Keeps.bind (note _) (fun _ => Keeps.bind (keeps_needed _) (fun output => process m output))

theorem keeps_cleanUp (remove : Keeps I (Run.files (removeTree b.scratch))) : Keeps I b.cleanUp :=
  Run.keeps_disk_of (fun _ => Keeps.ite
    (fun _ => Keeps.bind (note _) (fun _ => Keeps.bind remove (fun _ => note _)))
    (fun _ => Keeps.pure _))

end Keeping

/-- A lane goes to the directory for what goes out, and the input directory is not the root. -/
structure Approach (b : Batch) (d : Disk) (s : String) (p : Place) (ns : List String) : Prop where
  named : Named (d.absolute b.input)
  text : d.absolute b.localInput = extend s ns
  lane : Lane d s p ns
  proper : AllProper ns
  nonempty : ns ≠ []

/-- The second disk has all that the first one has, and along a lane to the directory for what goes out
they differ at its places only. -/
structure Tended (b : Batch) (d e : Disk) : Prop where
  genuine : e.Genuine
  kept : Kept d e
  confined : ∀ s p ns, b.Approach d s p ns → Confined d e s p ns

theorem Tended.refl (b : Batch) {d : Disk} (hd : d.Genuine) : b.Tended d d where
  genuine := hd
  kept := Kept.refl d
  confined _ _ _ h := ⟨h.lane, fun _ _ => rfl⟩

def Permits (b : Batch) (d : Disk) (u : String) : Prop :=
  ∀ s p ns, b.Approach d s p ns → (∃ ms, Along ns ms ∧ ms ≠ [] ∧ u = extend s ms) ∨ ∃ q, Leads d u q

theorem survives_tended (b : Batch) (d : Disk) : Survives (b.Tended d) (b.Permits d) := by
  intro e u r x tended permits sets
  have spot := sets.spot tended.genuine
  refine ⟨spot.genuine tended.genuine, tended.kept.set spot, fun s p ns approach => ?_⟩
  have confined := tended.confined s p ns approach
  rcases permits s p ns approach with ⟨ms, along, hm, rfl⟩ | ⟨q, leads⟩
  · obtain rfl := confined.lane.place tended.genuine.sound along hm sets
    exact confined.set along hm spot
  · exact absurd sets (tended.kept.leads leads).not_sets

theorem permits_above (b : Batch) (d : Disk) (u : String) (h : b.Permits d u) :
    b.Permits d (ends u).1 := by
  intro s p ns approach
  rcases h s p ns approach with ⟨ms, along, hm, rfl⟩ | ⟨q, leads⟩
  · obtain ⟨ks, n, rfl⟩ := List.eq_nil_or_concat ms |>.resolve_left hm
    rw [List.concat_eq_append] at *
    have front := along.of_prefix (List.prefix_append ks [n])
    rw [ends_eq_split, bare_named (named_extend along.1 hm), extend_concat, split_join_bare along.1.last]
    by_cases start : ks = []
    · rw [start, extend_nil]
      exact Or.inr ⟨p, approach.lane.leads.bare⟩
    · exact Or.inl ⟨ks, front, start, bare_named (named_extend front.1 start)⟩
  · exact Or.inr leads.above

section Approach

variable {b : Batch} {d : Disk} {s : String} {p : Place} {ns : List String} (h : b.Approach d s p ns)
  {ks : List String} (hks : AllProper ks)
include h hks

theorem Approach.below_eq :
    Processing.relative (extend (d.absolute b.input) ks) (d.absolute b.input) = joined ks := by
  rw [Processing.relative, h.named.drop_extend hks]

-- Below the root a character is lost, and what is left can be a path from the root on.
example : Processing.relative "/w/out" "/" = "/out" := by decide

theorem Approach.target_eq {n : String} (hn : Proper n) :
    join (join (d.absolute b.localInput) (joined ks)) n = extend s (ns ++ ks ++ [n]) := by
  rw [join_joined_name hks hn, h.text, ← extend_append, List.append_assoc]

theorem Approach.along : Along ns (ns ++ ks) ∧ ns ++ ks ≠ [] :=
  ⟨⟨h.proper.append hks, Or.inr (List.prefix_append _ _)⟩, by simp [h.nonempty]⟩

end Approach

theorem permits_target {b : Batch} {d e : Disk} (here : e.here = d.here) {ks : List String}
    {n below target : String} (hks : AllProper ks) (hn : Proper n)
    (hb : below = Processing.relative (extend (e.absolute b.input) ks) (e.absolute b.input))
    (ht : target = join (join (e.absolute b.localInput) below) n) :
    b.Permits d (Path.parent target) ∧ b.Permits d target ∧
      b.Permits d (join target (name (join (join (e.absolute b.input) below) n))) := by
  have one : AllProper [n] := hn.single
  have same : ∀ path, e.absolute path = d.absolute path := fun path => by
    rw [Disk.absolute, Disk.absolute, here]
  rw [same] at hb ht ⊢
  have text : ∀ {s p ns}, b.Approach d s p ns → target = extend s (ns ++ ks ++ [n]) := by
    intro s p ns h
    rw [ht, hb, h.below_eq hks, h.target_eq hks hn]
  refine ⟨fun s p ns h => Or.inl ⟨ns ++ ks, (h.along hks).1, (h.along hks).2, ?_⟩,
    fun s p ns h => Or.inl ⟨ns ++ ks ++ [n], ?_, by simp, text h⟩,
    fun s p ns h => Or.inl ⟨ns ++ ks ++ [n] ++ [n], ?_, by simp, ?_⟩⟩
  · have front := named_extend (s := s) (h.along hks).1.1 (h.along hks).2
    rw [text h, extend_concat, parent_join front.trimmed hn]
  · rw [List.append_assoc]
    exact (h.along (hks.append one)).1
  · rw [List.append_assoc, List.append_assoc]
    exact (h.along (hks.append (one.append one))).1
  · rw [hb, h.below_eq hks, join_joined_name hks hn, extend_concat,
      name_join (h.named.trimmed.extend hks) hn, text h, ← extend_concat]

theorem keeps_expandFile (b : Batch) (m : Macros) {d e : Disk} (here : e.here = d.here)
    {ns : List String} {n : String} (hns : AllProper ns) (hn : Proper n) :
    Keeps (fun w : World => b.Tended d w.disk)
      (Processing.processFile m .expand (e.absolute b.input) (e.absolute b.localInput)
        (Processing.relative (extend (e.absolute b.input) ns) (e.absolute b.input)) n) := by
  have survives := survives_tended b d
  obtain ⟨parent, target, inside⟩ := permits_target here hns hn rfl rfl
  exact Processing.keeps_processFile (fun n => Run.keeps_emit (fun _ hw => hw)) m .expand
    (Run.keeps_files_of (survives.makePath (permits_above b d) parent))
    (fun content => Run.keeps_files_of (survives.write target content))
    (Run.keeps_files_of (survives.copy target inside))

theorem keeps_expandTree (b : Batch) (m : Macros) {d e : Disk} (here : e.here = d.here) :
    Keeps (fun w : World => b.Tended d w.disk)
      (Processing.processTree m .expand (e.absolute b.input) (e.absolute b.localInput)) := by
  refine Processing.keeps_processTree (V := Below (e.absolute b.input)) (N := Proper)
    (fun w s n hw => list_proper hw.genuine.sound.tree.tidy) (fun s n => Below.join) ?_ (Below.refl _)
  rintro _ n ⟨ns, hns, rfl⟩ hn
  exact b.keeps_expandFile m here hns hn

theorem preprocess_tended (b : Batch) {w : World} (hw : w.disk.Genuine) :
    b.Tended w.disk (final (b.preprocess w)).disk := by
  have keeps : Keeps (fun v : World => b.Tended w.disk v.disk) b.preprocess :=
    b.keeps_preprocess (fun _ => Run.keeps_emit (fun _ hv => hv)) (fun m =>
      Run.keeps_disk_bind (fun v hv => b.keeps_expandTree m hv.kept.here v hv))
  exact keeps w (Tended.refl b hw)

/-- The scratch directory belongs at the place: its path leads to a directory, through links if need be,
and goes on from there past none. At its directory `input`, and in it, there are none either. -/
def Straight (b : Batch) (d : Disk) (place : Place) : Prop :=
  ∃ s p ns, b.Approach d s p ns ∧ place ++ ["input"] = p ++ ns

theorem Tended.node?_apart {b : Batch} {d e : Disk} (h : b.Tended d e) {place top : Place}
    (straight : b.Straight d place) (apart : Apart top place) (r : Place) :
    e.tree.node? (top ++ r) = d.tree.node? (top ++ r) := by
  obtain ⟨s, p, ns, approach, whole⟩ := straight
  refine (h.confined s p ns approach).rest _ (fun ms along _ same => ?_)
  rcases along.2 with on | beyond
  · have before : top <+: place ++ ["input"] := by
      rw [whole]
      exact (List.prefix_append top r).trans (same ▸ (List.prefix_append_right_inj p).mpr on)
    rcases List.prefix_concat_iff.mp before with rfl | before
    · exact apart.2 (List.prefix_append _ _)
    · exact apart.1 before
  · have after : place <+: top ++ r := by
      rw [same]
      exact (List.prefix_append place ["input"]).trans
        (whole ▸ (List.prefix_append_right_inj p).mpr beyond)
    exact (apart.append r).2 after

end Batch

end SqlMigration
