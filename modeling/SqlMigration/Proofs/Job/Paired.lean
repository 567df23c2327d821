import SqlMigration.Proofs.Cloud.Neat
import SqlMigration.Proofs.Files.Twin
import SqlMigration.Proofs.Job.Layout
import SqlMigration.Proofs.Job.Transfer

/-!
# Two jobs side by side

Two worlds are paired when their disks are twins and all else is the same. What a
job does with files, storage and service keeps them paired, as long as the paths
that it uses lead through near places only.
-/

set_option autoImplicit false

namespace SqlMigration

open SqlMigration.Path Files Effect

/-! ### Two worlds side by side -/

/-- Two worlds with twin disks and all else the same, in which the objects of a job have neat names. -/
structure Paired (b : Batch) (z : Zone) (here : Place) (path : String) (w v : World) : Prop where
  disk : Twin z here w.disk v.disk
  rest : v = { w with disk := v.disk }
  stem : b.storagePath w.now w.uuid = path
  neat : w.storage.Neat b.bucket path
  extras : ∀ c, w.service.converter = some c → c.PlainExtras

namespace Paired

variable {b : Batch} {z : Zone} {here : Place} {path : String}

theorem files {α : Type} {action : Action α} (h : Parallel (Twin z here) action action) :
    Parallel (Paired b z here path) (Run.files action) (Run.files action) := by
  intro w v paired
  have alike := h _ _ paired.disk
  rw [Run.files, Run.files]
  generalize action w.disk = r at alike
  generalize action v.disk = q at alike
  have rest := paired.rest
  cases alike with
  | ok a twin =>
    refine .ok a ⟨twin, ?_, paired.stem, paired.neat, paired.extras⟩
    rw [rest]
  | error e twin =>
    refine .error _ ⟨twin, ?_, paired.stem, paired.neat, paired.extras⟩
    rw [rest]

theorem emit (e : Event) : Parallel (Paired b z here path) (Run.emit e) (Run.emit e) := by
  refine Parallel.modify (fun w v paired => ⟨paired.disk, ?_, paired.stem, paired.neat, paired.extras⟩)
  rw [paired.rest]

theorem note (n : Note) : Parallel (Paired b z here path) (Run.note n) (Run.note n) := emit _

theorem fail {α : Type} (f : Failure) :
    Parallel (Paired b z here path) (Run.fail f : Run α) (Run.fail f) :=
  Parallel.throw _

theorem disk_bind {α : Type} {f : Disk → Run α}
    (h : ∀ d e, Twin z here d e → Parallel (Paired b z here path) (f d) (f e)) :
    Parallel (Paired b z here path) (Run.disk >>= f) (Run.disk >>= f) :=
  fun w v paired => h _ _ paired.disk w v paired

theorem changeStorage {f : Storage → Storage}
    (h : ∀ s, s.Neat b.bucket path → (f s).Neat b.bucket path) :
    Parallel (Paired b z here path) (Transfer.changeStorage f) (Transfer.changeStorage f) := by
  refine Parallel.modify
    (fun w v paired => ⟨paired.disk, ?_, paired.stem, h _ paired.neat, paired.extras⟩)
  rw [paired.rest]

/-! ### Walks and files -/

section Walk

variable {s : String} {p : Place} (ground : Ground z here s p)
include ground

theorem walk (visit : String → List String → Run Unit)
    (hv : ∀ ns names, AllProper ns → (∀ n ∈ names, Proper n) →
      Parallel (Paired b z here path) (visit (extend s ns) names) (visit (extend s ns) names))
    (fuel : Nat) {ns : List String} (hns : AllProper ns) :
    Parallel (Paired b z here path) (Run.walk visit fuel (extend s ns))
      (Run.walk visit fuel (extend s ns)) := by
  induction fuel generalizing ns with
  | zero => exact Parallel.pure _
  | succ fuel ih =>
    refine disk_bind (fun d e twin => ?_)
    rw [ground.list_eq twin hns]
    have proper : ∀ n, n ∈ (e.list (extend s ns)).1 ∨ n ∈ (e.list (extend s ns)).2 → Proper n :=
      fun _ => list_proper twin.tidy'
    generalize e.list (extend s ns) = listed at proper
    obtain ⟨directories, others⟩ := listed
    refine Parallel.bind (hv ns others hns (fun n hn => proper n (Or.inr hn))) (fun _ => ?_)
    refine Parallel.forM directories (fun n hn => disk_bind (fun d e twin => ?_))
    have next : AllProper (ns ++ [n]) :=
      hns.concat (proper n (Or.inl hn))
    have safe := ground.safe_extend next
    rw [extend_concat] at safe
    rw [twin.isLink_eq safe]
    refine Parallel.ite (fun _ => Parallel.pure _) (fun _ => ?_)
    rw [← extend_concat]
    exact ih next

theorem walkAll (visit : String → List String → Run Unit)
    (hv : ∀ ns names, AllProper ns → (∀ n ∈ names, Proper n) →
      Parallel (Paired b z here path) (visit (extend s ns) names) (visit (extend s ns) names)) :
    Parallel (Paired b z here path) (Run.walkAll visit s) (Run.walkAll visit s) := by
  have nil : AllProper [] := fun _ h => nomatch h
  have run := walk ground visit hv pathLimit nil
  rw [extend_nil] at run
  exact Parallel.ite (fun _ => files (parallel_refuse _ _)) (fun _ => run)

theorem readText {ns : List String} (hns : AllProper ns) :
    Parallel (Paired b z here path) (Processing.readText (extend s ns))
      (Processing.readText (extend s ns)) := by
  refine Parallel.bind (files (parallel_read (ground.safe_extend hns))) (fun content => ?_)
  cases Utf8.decode content with
  | error f => exact fail _
  | ok text => exact Parallel.pure _

theorem writeText {ns : List String} (hns : AllProper ns) (text : Text) :
    Parallel (Paired b z here path) (Processing.writeText (extend s ns) text)
      (Processing.writeText (extend s ns) text) := by
  have written := fun content => parallel_write (ground.safe_extend hns) content
  rw [Processing.writeText]
  cases text.encode with
  | ok content => exact files (written content)
  | error stray => exact Parallel.bind (files (written [])) (fun _ => fail _)

theorem alterFile {o : String} {q : Place} (target : Ground z here o q) (m : Macros)
    (dir : Processing.Direction) {ns : List String} (hns : AllProper ns) :
    Parallel (Paired b z here path) (Processing.alterFile m dir (extend s ns) (extend o ns) s o)
      (Processing.alterFile m dir (extend s ns) (extend o ns) s o) := by
  cases dir with
  | expand =>
    exact Parallel.bind (note _) (fun _ =>
      Parallel.bind (readText ground hns) (fun text => writeText target hns _))
  | revert =>
    exact Parallel.bind (note _) (fun _ =>
      Parallel.bind (readText ground hns) (fun text => writeText target hns _))

theorem processFile {o : String} {q : Place} (target : Ground z here o q) (m : Macros)
    (dir : Processing.Direction) {ns : List String} {n : String} (hns : AllProper ns) (hn : Proper n) :
    Parallel (Paired b z here path)
      (Processing.processFile m dir s o (Processing.relative (extend s ns) s) n)
      (Processing.processFile m dir s o (Processing.relative (extend s ns) s) n) := by
  have one : AllProper [n] := hn.single
  have whole := hns.append one
  have source := ground.safe_extend whole
  have inside := target.safe_extend (whole.append one)
  rw [extend_concat o (ns ++ [n])] at inside
  have last := name_extend ground.named.trimmed hns hn
  have ignored : ∀ d e, Twin z here d e → Processing.isIgnored d (extend s (ns ++ [n])) n =
      Processing.isIgnored e (extend s (ns ++ [n])) n := by
    intro d e twin
    rw [Processing.isIgnored, Processing.isIgnored, twin.isFile_eq source]
  rw [Processing.processFile_eq ground.named target.named hns hn]
  refine disk_bind (fun d e twin => ?_)
  rw [ignored d e twin]
  refine Parallel.ite (fun _ => Parallel.pure _) (fun _ => ?_)
  refine Parallel.bind (files (parallel_makePath (target.safe_extend hns))) (fun _ => ?_)
  refine disk_bind (fun d e twin => ?_)
  rw [Processing.isProcessable, Processing.isProcessable, ignored d e twin]
  refine Parallel.ite (fun _ => alterFile ground target m dir whole) (fun _ => files ?_)
  refine parallel_copy source (target.safe_extend whole) ?_
  rwa [last]

theorem processTree {o : String} {q : Place} (target : Ground z here o q) (m : Macros)
    (dir : Processing.Direction) :
    Parallel (Paired b z here path) (Processing.processTree m dir s o)
      (Processing.processTree m dir s o) := by
  exact walkAll ground (fun top names =>
      names.forM (Processing.processFile m dir s o (Processing.relative top s)))
    (fun ns names hns hn =>
      Parallel.forM names (fun n h => processFile ground target m dir hns (hn n h)))

end Walk

theorem processDirectory {i o top out : String} {p q : Place}
    (hi : ∀ d : Disk, d.here = here → d.absolute i = top) (ground : Ground z here top p)
    (ho : ∀ d : Disk, d.here = here → d.absolute o = out) (target : Ground z here out q)
    (m : Macros) (dir : Processing.Direction) :
    Parallel (Paired b z here path) (Processing.processDirectory m dir i o)
      (Processing.processDirectory m dir i o) := by
  refine disk_bind (fun d e twin => ?_)
  rw [hi d twin.left, ho d twin.left, hi e twin.right, ho e twin.right]
  exact processTree ground target m dir

/-! ### Transfers -/

theorem openBucket (bucket : String) :
    Parallel (Paired b z here path) (Transfer.openBucket bucket) (Transfer.openBucket bucket) := by
  refine Parallel.bind (note _) (fun _ => Parallel.bind (emit _) (fun _ => ?_))
  refine Parallel.get_bind (fun w v paired => ?_)
  have same : v.storage = w.storage := by rw [paired.rest]
  rw [same]
  cases w.storage.getBucket bucket with
  | ok _ => exact Parallel.pure _
  | error fault =>
    cases fault with
    | forbidden name => exact fail _
    | noBucket name =>
      exact Parallel.bind (note _) (fun _ => Parallel.bind (emit _) (fun _ =>
        changeStorage (fun s h => h.createBucket name)))

theorem uploadFile {top : String} {p : Place} (ground : Ground z here top p) {ns : List String}
    {n : String} (hns : AllProper ns) (hn : Proper n) :
    Parallel (Paired b z here path)
      (Transfer.uploadFile b.bucket (join path "input") top (extend top ns) n)
      (Transfer.uploadFile b.bucket (join path "input") top (extend top ns) n) := by
  have whole : AllProper (ns ++ [n]) := hns.concat hn
  have object : join (join (join path "input") (Transfer.below (extend top ns) top)) n =
      extend (join path "input") (ns ++ [n]) := by
    rw [Transfer.below_extend hns, join_joined_name hns hn]
  unfold Transfer.uploadFile
  simp only [object, ← extend_concat]
  refine Parallel.bind (note _) (fun _ => ?_)
  refine Parallel.bind (files (parallel_read (ground.safe_extend whole))) (fun content => ?_)
  exact Parallel.bind (emit _) (fun _ =>
    changeStorage (fun s h => h.store whole (by simp) content))

theorem upload {directory top : String} {p : Place} (safe : Safe z here directory)
    (habs : ∀ d : Disk, d.here = here → d.absolute directory = top) (ground : Ground z here top p) :
    Parallel (Paired b z here path) (Transfer.upload directory b.bucket (join path "input"))
      (Transfer.upload directory b.bucket (join path "input")) := by
  have rest : Parallel (Paired b z here path) (do
        Transfer.openBucket b.bucket
        let top := (← Run.disk).absolute directory
        Run.walkAll (fun here names =>
          names.forM (Transfer.uploadFile b.bucket (join path "input") top here)) top
        Run.note (.uploaded b.bucket (join path "input")))
      (do
        Transfer.openBucket b.bucket
        let top := (← Run.disk).absolute directory
        Run.walkAll (fun here names =>
          names.forM (Transfer.uploadFile b.bucket (join path "input") top here)) top
        Run.note (.uploaded b.bucket (join path "input"))) := by
    refine Parallel.bind (openBucket _) (fun _ => disk_bind (fun d e twin => ?_))
    simp only [habs d twin.left, habs e twin.right]
    refine Parallel.bind (walkAll ground _ (fun ns names hns hn => ?_)) (fun _ => note _)
    exact Parallel.forM names (fun n h => uploadFile ground hns (hn n h))
  refine disk_bind (fun d e twin => ?_)
  rw [twin.isDirectory_eq safe]
  exact Parallel.ite (fun _ => Parallel.bind (fail _) (fun _ => rest)) (fun _ => rest)

theorem downloadObject {directory : String} {p : Place} (ground : Ground z here directory p)
    (bucket : String) {stem : String} (hs : Named stem) {q : Place} (hq : AllProper q) (hne : q ≠ [])
    (content : Bytes) :
    Parallel (Paired b z here path)
      (Transfer.downloadObject (.path directory) bucket stem (extend stem q, content))
      (Transfer.downloadObject (.path directory) bucket stem (extend stem q, content)) := by
  obtain ⟨ns, n, rfl⟩ := List.eq_nil_or_concat q |>.resolve_left hne
  rw [List.concat_eq_append] at hq ⊢
  have named := ground.named.extend hq.left
  have last := name_extend hs.trimmed hq.left hq.last
  have dir := Transfer.directoryOf_named hs hq.left hq.last ground.named
  have file := Transfer.join_directoryOf directory hs hq.left hq.last
  rw [Transfer.directoryOf] at dir
  rw [Transfer.directoryOf, dir] at file
  simp only [Transfer.downloadObject, Given.needed, pure_bind, dir, last, file]
  refine Parallel.bind (files (parallel_makePath ((ground.safe_extend hq.left).slash named)))
    (fun _ => ?_)
  exact Parallel.bind (note _) (fun _ => Parallel.bind (emit _) (fun _ =>
    files (parallel_write (ground.safe_extend hq) content)))

theorem download {directory : String} {p : Place} (ground : Ground z here directory p) :
    Parallel (Paired b z here path)
      (Transfer.download (.path directory) b.bucket (join path "output"))
      (Transfer.download (.path directory) b.bucket (join path "output")) := by
  refine Parallel.bind (emit _) (fun _ => Parallel.get_bind (fun w v paired => ?_))
  have same : v.storage = w.storage := by rw [paired.rest]
  rw [same, Storage.list]
  by_cases none : (Table.get? w.storage.buckets b.bucket).isNone = true
  · rw [if_pos none]
    exact fail _
  · rw [if_neg none]
    refine Parallel.bind (note _) (fun _ => Parallel.bind (Parallel.forM _ ?_) (fun _ => note _))
    rintro ⟨object, content⟩ listed
    obtain ⟨there, below⟩ := Storage.mem_listing.mp listed
    obtain ⟨q, hq, hne, rfl⟩ := Storage.NeatNames.target paired.neat (List.mem_map.mpr ⟨_, there, rfl⟩) below
    exact downloadObject ground _ (named_join proper_output) hq hne content

/-! ### The job -/

theorem create (source target : String) (h : ∀ c : Converter, c.PlainExtras → ∀ s : Storage,
      s.Neat b.bucket path → (c.act source target s).Neat b.bucket path) :
    Parallel (Paired b z here path) (b.create source target) (b.create source target) := by
  refine Parallel.get_bind (fun w v paired => ?_)
  have now : v.now = w.now := by rw [paired.rest]
  have service : v.service = w.service := by rw [paired.rest]
  rw [now, service]
  have answered : Parallel (Paired b z here path) (Batch.announce w.service.created)
      (Batch.announce w.service.created) :=
    Parallel.bind (Run.parallel_ofExcept _) (fun _ => Parallel.bind (emit _) (fun _ => Parallel.pure _))
  refine Parallel.bind (emit _) (fun _ => ?_)
  cases hc : w.service.converter with
  | none => exact answered
  | some c => exact Parallel.bind (changeStorage (h c (paired.extras c hc))) (fun _ => answered)

theorem storagePath_bind {α : Type} {f : String → Run α}
    (h : Parallel (Paired b z here path) (f path) (f path)) :
    Parallel (Paired b z here path) (b.newStoragePath >>= f) (b.newStoragePath >>= f) := by
  intro w v paired
  have given : ∀ u : World, b.newStoragePath u = .ok (b.storagePath u.now u.uuid) u := fun _ => rfl
  have same : b.storagePath v.now v.uuid = path := by
    rw [paired.rest]
    exact paired.stem
  rw [bind_ok (given w), bind_ok (given v), paired.stem, same]
  exact h w v paired

theorem link (job : String) :
    Parallel (Paired b z here path) (b.link job) (b.link job) := by
  rw [Batch.link]
  cases b.link? job with
  | some s => exact Parallel.pure s
  | none => exact fail _

theorem answer : Parallel (Paired b z here path) Batch.answer Batch.answer := by
  intro w v paired
  have service : v.service = w.service := by rw [paired.rest]
  have kept : w.service.afterState.converter = w.service.converter := by
    rw [Service.afterState]
    split <;> rfl
  have result : ∀ u : World, Batch.answer u =
      .ok u.service.state { u with service := u.service.afterState } := fun _ => rfl
  rw [result, result, service]
  refine .ok _ ⟨paired.disk, ?_, paired.stem, paired.neat, kept ▸ paired.extras⟩
  rw [paired.rest]

theorem getWorkflow (job : String) :
    Parallel (Paired b z here path) (Batch.getWorkflow job) (Batch.getWorkflow job) :=
  Parallel.bind (note _) (fun _ => Parallel.bind (emit _) (fun _ => Parallel.bind answer (fun _ =>
    Parallel.bind (Run.parallel_ofExcept _) (fun _ => Parallel.pure _))))

theorem sleep : Parallel (Paired b z here path) Batch.sleep Batch.sleep := by
  refine Parallel.bind (emit _) (fun _ => Parallel.modify (fun w v paired =>
    ⟨paired.disk, ?_, paired.stem, paired.neat, paired.extras⟩))
  rw [paired.rest]

theorem giveUp (job : String) (seconds : Int) :
    Parallel (Paired b z here path) (Batch.poll.giveUp b job seconds)
      (Batch.poll.giveUp b job seconds) :=
  Parallel.bind (link job) (fun _ => Parallel.bind (note _) (fun _ => Parallel.throw _))

theorem poll (job : String) (limit : Int) (start : Rat) (fuel : Nat) (seconds : Int) :
    Parallel (Paired b z here path) (b.poll job limit start fuel seconds)
      (b.poll job limit start fuel seconds) := by
  induction fuel generalizing seconds with
  | zero => exact giveUp job seconds
  | succ fuel ih =>
    rw [Batch.poll]
    refine Parallel.ite (fun _ => ?_) (fun _ => giveUp job seconds)
    refine Parallel.bind sleep (fun _ => Parallel.get_bind (fun w v paired => ?_))
    have clock : v.clock = w.clock := by rw [paired.rest]
    rw [clock]
    refine Parallel.bind (getWorkflow job) (fun _ => Parallel.bind (note _) (fun _ => ?_))
    exact Parallel.ite (fun _ => Parallel.pure _) (fun _ => ih _)

theorem wait (job : String) (limit : Int) :
    Parallel (Paired b z here path) (b.wait job limit) (b.wait job limit) := by
  refine Parallel.get_bind (fun w v paired => ?_)
  have clock : v.clock = w.clock := by rw [paired.rest]
  have looks : Batch.looks limit v = Batch.looks limit w := by rw [paired.rest]; rfl
  rw [clock, looks]
  exact poll job limit _ _ _

end Paired

end SqlMigration
