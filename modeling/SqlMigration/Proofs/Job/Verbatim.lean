import SqlMigration.Proofs.Job.RoundTrip
import SqlMigration.Proofs.Job.Separation

/-!
# Jobs with nothing to replace

A job with macros sends a copy of its input directory. If there is nothing to
replace and the texts are written as they have been read, the copy holds the
same files, and the job is handed over with the same objects and by the same
request as without macros. Only an input directory without files has no copy.
-/

set_option autoImplicit false

namespace SqlMigration

open SqlMigration.Path Files Effect
open Processing (isHidden isCopied lastName outcomes)

/-! ### Texts -/

theorem Expansion.expand_nil (s : List Code) : expand [] s = s := by
  unfold expand
  induction s with
  | nil => rfl
  | cons c s ih => exact congrArg (c :: ·) ih

theorem Processing.result_plain {rel n : String} {c : Bytes}
    (text : isCopied n = false → ∃ s, c = Utf8.encode s ∧ '\r' ∉ s) :
    result [] .expand rel n c = some c := by
  cases copied : isCopied n with
  | true => rw [result, if_pos copied]
  | false =>
    obtain ⟨s, rfl, plain⟩ := text copied
    refine (result_eq_some_iff copied).mpr ⟨s, Utf8.decode_encode s, ?_⟩
    rw [Newline.unify, Newline.unifyFrom_eq_self plain]
    exact Text.encode_eq_ok_iff.mpr ⟨s, congrArg Text.ofList (Expansion.expand_nil _), rfl⟩

/-! ### Walks over a copy -/

theorem Run.mem_fileNames_unlinked {t : Tree} {p : Place} (plain : Unlinked t p) {ns : List String}
    {n : String} : n ∈ fileNames t (p ++ ns) ↔ ∃ c, t.node? (p ++ (ns ++ [n])) = some (.file c) := by
  rw [mem_fileNames, List.append_assoc]
  constructor
  · rintro ⟨x, there, other⟩
    cases x with
    | directory => exact absurd rfl other
    | file c => exact ⟨c, there⟩
    | link target => exact absurd there (plain _ target)
  · rintro ⟨c, there⟩
    exact ⟨_, there, by simp⟩

theorem Run.flatMap_filter {α β : Type} {l : List α} {keep : α → Bool} {f : α → List β}
    (rest : ∀ a ∈ l, keep a = false → f a = []) : (l.filter keep).flatMap f = l.flatMap f := by
  induction l with
  | nil => rfl
  | cons a l ih =>
    have tail := ih (fun b hb => rest b (List.mem_cons_of_mem a hb))
    cases kept : keep a with
    | true => rw [List.filter_cons_of_pos kept, List.flatMap_cons, List.flatMap_cons, tail]
    | false =>
      rw [List.filter_cons_of_neg (by simp [kept]), List.flatMap_cons, tail,
        rest a List.mem_cons_self kept, List.nil_append]

namespace Transfer

section Copied

variable {t u : Tree} {p q : Place} (h : Copied t p u q) (ht : t.Sound) (hu : u.Sound)
  (unlinked : Unlinked t p)
include h ht hu unlinked

theorem Copied.fileNames_eq (ns : List String) :
    Run.fileNames u (q ++ ns) = Run.fileNames t (p ++ ns) := by
  refine Tree.eq_of_ordered ((Tree.names_pairwise _ _).filter _) ((Tree.names_pairwise _ _).filter _)
    ((Tree.names_nodup hu.nodup _).filter _) ((Tree.names_nodup ht.nodup _).filter _) (fun n => ?_)
  rw [Run.mem_fileNames_unlinked h.unlinked, Run.mem_fileNames_unlinked unlinked]
  exact exists_congr (fun c => h.files _ c)

/-- A walk over the copy comes past the same files. Directories without files are not in the copy, and
a walk finds nothing in them. -/
theorem Copied.visited_eq (fuel : Nat) (ns : List String) :
    Run.visited u q fuel ns = Run.visited t p fuel ns := by
  classical
  induction fuel generalizing ns with
  | zero => rfl
  | succ fuel ih =>
    let inhabited : String → Bool := fun n =>
      decide (∃ below c, below ≠ [] ∧ t.node? (p ++ (ns ++ [n] ++ below)) = some (.file c))
    have directories : Run.directoryNames u (q ++ ns) =
        (Run.directoryNames t (p ++ ns)).filter inhabited := by
      refine Tree.eq_of_ordered ((Tree.names_pairwise _ _).filter _)
        (((Tree.names_pairwise _ _).filter _).filter _) ((Tree.names_nodup hu.nodup _).filter _)
        (((Tree.names_nodup ht.nodup _).filter _).filter _) (fun n => ?_)
      rw [List.mem_filter, Run.mem_directoryNames, Run.mem_directoryNames, List.append_assoc,
        List.append_assoc, h.directories, decide_eq_true_eq]
      refine ⟨fun inside => ⟨?_, inside⟩, fun inside => inside.2⟩
      obtain ⟨below, c, nonempty, there⟩ := inside
      rw [← List.append_assoc p] at there
      exact ht.directory_of_below there nonempty
    rw [Run.visited, Run.visited, h.fileNames_eq ht hu unlinked, directories, Run.flatMap_filter]
    · simp only [ih]
    · intro n _ none
      rw [List.eq_nil_iff_forall_not_mem]
      rintro ⟨ks, m⟩ visited
      rw [ih, Run.mem_visited ht] at visited
      obtain ⟨ms, x, rfl, _, there, other⟩ := visited
      refine of_decide_eq_false none ⟨ms ++ [m], ?_⟩
      rw [List.append_assoc, List.append_assoc] at there
      cases x with
      | directory => exact absurd rfl other
      | file c => exact ⟨c, by simp, by simpa using there⟩
      | link target => exact absurd there (unlinked _ target)

theorem Copied.filesBelow_eq : Run.filesBelow u q = Run.filesBelow t p := by
  rw [Run.filesBelow, Run.filesBelow, h.visited_eq ht hu unlinked]
  refine List.filterMap_congr (fun x _ => ?_)
  rw [Run.fileAt, Run.fileAt]
  congr 1
  refine Option.ext (fun c => ?_)
  rw [Run.contentAt_eq_some, Run.contentAt_eq_some]
  exact h.files _ c

end Copied

end Transfer

/-! ### Handing over -/

def Event.isCreation : Event → Bool
  | .requested (.create _) => true
  | _ => false

def World.sent (w : World) : List Event := w.events.filter Event.isSent

/-- Two worlds that differ in the disk and in the log at most, and with the same sent. -/
structure SameCargo (u v : World) : Prop where
  rest : v = { u with disk := v.disk, events := v.events }
  sent : v.sent = u.sent

theorem SameCargo.storage {u v : World} (h : SameCargo u v) : v.storage = u.storage := by
  rw [h.rest]

theorem SameCargo.after {u v : World} (h : SameCargo u v) (e : Event) :
    SameCargo (u.after e) (v.after e) where
  rest := by
    rw [h.rest]
    rfl
  sent := by
    have sent := h.sent
    rw [World.sent, World.sent] at sent ⊢
    rw [World.after, World.after, List.filter_append, List.filter_append, sent]

theorem SameCargo.emit (e : Event) : Parallel SameCargo (Run.emit e) (Run.emit e) :=
  Parallel.modify (fun _ _ h => h.after e)

theorem SameCargo.changeStorage (f : Storage → Storage) :
    Parallel SameCargo (Transfer.changeStorage f) (Transfer.changeStorage f) := by
  refine Parallel.modify (fun u v h => ⟨?_, h.sent⟩)
  rw [h.rest]

theorem SameCargo.stored {u v : World} (h : SameCargo u v) (s : Storage) {events events' : List Event}
    (sent : events'.filter Event.isSent = events.filter Event.isSent) :
    SameCargo (u.stored s events) (v.stored s events') where
  rest := by
    rw [h.rest]
    rfl
  sent := sent

theorem SameCargo.create (b : Batch) (source target : String) :
    Parallel SameCargo (b.create source target) (b.create source target) := by
  refine Parallel.get_bind (fun u v h => ?_)
  rw [h.rest]
  have answered : Parallel SameCargo (Batch.announce u.service.created) (Batch.announce u.service.created) :=
    Parallel.bind (Run.parallel_ofExcept _) (fun _ =>
      Parallel.bind (SameCargo.emit _) (fun _ => Parallel.pure _))
  refine Parallel.bind (SameCargo.emit _) (fun _ => ?_)
  cases u.service.converter with
  | none => exact answered
  | some c => exact Parallel.bind (SameCargo.changeStorage _) (fun _ => answered)

namespace Transfer

theorem openBucket_ends {w v : World} {bucket : String} (run : openBucket bucket w = .ok () v) :
    ∃ s events, v = w.stored s events := by
  rw [openBucket_eq] at run
  split at run
  · cases run
    exact ⟨w.storage, _, rfl⟩
  · cases run
    exact ⟨_, _, rfl⟩
  · cases run

theorem sameCargo_openBucket (bucket : String) :
    Parallel SameCargo (openBucket bucket) (openBucket bucket) := by
  refine Parallel.bind (SameCargo.emit _) (fun _ => Parallel.bind (SameCargo.emit _) (fun _ =>
    Parallel.get_bind (fun u v h => ?_)))
  rw [h.rest]
  cases u.storage.getBucket bucket with
  | ok _ => exact Parallel.pure _
  | error f =>
    cases f with
    | forbidden b => exact Parallel.throw _
    | noBucket b =>
      exact Parallel.bind (SameCargo.emit _) (fun _ => Parallel.bind (SameCargo.emit _) (fun _ =>
        SameCargo.changeStorage _))

theorem upload_closed {w v : World} {source bucket target : String} {p : Place} {stop : Stop}
    (sendable : Sendable w.disk source p) (closed : openBucket bucket w = .error stop v) :
    upload source bucket target w = .error stop v := by
  rw [upload, bind_ok (Run.disk_apply w), sendable.isDirectory, if_neg (by simp)]
  exact bind_error closed

theorem upload_alike {u v : World} {source source' : String} {p p' : Place} (bucket target : String)
    (h : SameCargo u v) (sendable : Sendable u.disk source p) (sendable' : Sendable v.disk source' p')
    (same : Run.filesBelow v.disk.tree p' = Run.filesBelow u.disk.tree p) :
    Alike SameCargo (upload source bucket target u) (upload source' bucket target v) := by
  have opens := sameCargo_openBucket bucket u v h
  generalize opened : openBucket bucket u = r at opens
  generalize opened' : openBucket bucket v = r' at opens
  cases opens with
  | error stop cargo =>
    rw [upload_closed sendable opened, upload_closed sendable' opened']
    exact .error stop cargo
  | ok _ cargo =>
    obtain ⟨s, events, rfl⟩ := openBucket_ends opened
    obtain ⟨s', events', rfl⟩ := openBucket_ends opened'
    have storage : s' = s := cargo.storage
    have sent : events'.filter Event.isSent = events.filter Event.isSent := cargo.sent
    obtain ⟨done, run, sends⟩ := upload_opened bucket target sendable.sound sendable.isDirectory rfl
      sendable.walkable (leads_of_find sendable.absolute) opened
    obtain ⟨done', run', sends'⟩ := upload_opened bucket target sendable'.sound sendable'.isDirectory rfl
      sendable'.walkable (leads_of_find sendable'.absolute) opened'
    rw [run, run', storage, same]
    refine .ok () (h.stored _ ?_)
    rw [sends, sends', sent, same]

end Transfer

namespace Batch

/-- So much has been sent, and so much is in the storage. -/
def Stowed (cargo : List Event) (s : Storage) (w : World) : Prop := w.sent = cargo ∧ w.storage = s

section Stowed

variable {cargo : List Event} {s : Storage}

theorem keeps_stowed_emit (e : Event) (unsent : e.isSent = false) :
    Keeps (Stowed cargo s) (Run.emit e) := by
  refine Keeps.modify (fun w hw => ⟨?_, hw.2⟩)
  rw [World.sent, List.filter_append, ← World.sent, hw.1]
  simp [unsent]

theorem keeps_stowed_note (n : Note) : Keeps (Stowed cargo s) (Run.note n) := keeps_stowed_emit _ rfl

theorem keeps_stowed_files {α : Type} (action : Action α) : Keeps (Stowed cargo s) (Run.files action) :=
  Run.keeps_files (fun _ hw => hw)

theorem keeps_stowed_processing (m : Macros) (dir : Processing.Direction) (input output : String) :
    Keeps (Stowed cargo s) (Processing.processDirectory m dir input output) :=
  Processing.keeps_processDirectory keeps_stowed_note keeps_stowed_files m dir _ _

theorem keeps_stowed_preprocess (b : Batch) : Keeps (Stowed cargo s) b.preprocess :=
  b.keeps_preprocess keeps_stowed_note (fun m => keeps_stowed_processing m _ _ _)

end Stowed

def withNoRules (b : Batch) : Batch := { b with macros := some [] }

/-- An input directory of visible files whose texts are written as they are read. There is no scratch
directory yet; it is not to be in the input directory, and all paths in it will keep to the limits. -/
structure Faithful (b : Batch) (d : Disk) (place base : Place) : Prop where
  sendable : Transfer.Sendable d b.input place
  parent : Leads d b.base base
  absolute : Leads d (d.absolute b.base) base
  apart : Apart place (base ++ [".tmp_processed"])
  fresh : d.tree.node? (base ++ [".tmp_processed"]) = none
  visible : ∀ q c, d.tree.node? (place ++ q) = some (.file c) → isHidden (lastName q) = false
  texts : ∀ q c, d.tree.node? (place ++ q) = some (.file c) → isCopied (lastName q) = false →
    ∃ s, c = Utf8.encode s ∧ '\r' ∉ s
  fits : ∀ q c, d.tree.node? (place ++ q) = some (.file c) → Fits b.withNoRules.localInput ∧
    Fits (extend (d.absolute b.withNoRules.localInput) q)

section Faithful

variable {b : Batch} {d : Disk} {place base : Place} (h : b.Faithful d place base)
include h

theorem Faithful.direct : b.Direct d place base where
  input := leads_of_find h.sendable.absolute
  parent := h.absolute
  inputUnlinked := h.sendable.unlinked
  scratchUnlinked := by
    intro q target there
    have free := free_of_missing h.sendable.sound.tree [] (h.parent.directory h.sendable.sound) h.fresh
    rw [free.none_below h.sendable.sound.tree (List.prefix_append _ q)] at there
    cases there

theorem Faithful.named : Proper (name b.input) := by
  obtain ⟨base', leads, improper, _⟩ := leads_through h.sendable.named
  obtain rfl : base = base' := h.parent.unique leads
  by_contra none
  exact h.apart.1 ((improper none).trans (List.prefix_append _ _))

theorem Faithful.approach : ∃ s, b.withNoRules.Approach d s base [".tmp_processed", "input"] := by
  have direct : b.withNoRules.Direct d place base := ⟨h.direct.input, h.direct.parent,
    h.direct.inputUnlinked, h.direct.scratchUnlinked⟩
  exact Direct.approach (b := b.withNoRules) h.sendable.sound (find_eq_follow h.sendable.named true).1
    h.named direct rfl

theorem Faithful.points :
    Points d (d.absolute b.withNoRules.localInput) (base ++ [".tmp_processed", "input"]) := by
  obtain ⟨s, approach⟩ := h.approach
  exact ⟨s, base, _, approach.lane.trimmed, approach.lane.leads, approach.proper, approach.nonempty,
    approach.text, rfl⟩

theorem Faithful.free : Free d.tree (base ++ [".tmp_processed", "input"]) :=
  free_of_missing h.sendable.sound.tree ["input"] (h.parent.directory h.sendable.sound) h.fresh

theorem Faithful.mem_outcomes {q : Place} {c : Bytes} :
    (q, c) ∈ outcomes [] .expand d.tree place ↔ d.tree.node? (place ++ q) = some (.file c) := by
  have there := (leads_of_find h.sendable.named).directory h.sendable.sound
  rw [Processing.mem_outcomes h.sendable.walkable there]
  constructor
  · rintro ⟨c', file, _, result⟩
    rw [Processing.result_plain (h.texts q c' file)] at result
    cases result
    exact file
  · intro file
    exact ⟨c, file, h.visible q c file, Processing.result_plain (h.texts q c file)⟩

theorem Faithful.preprocess_copies {w : World} (disk : w.disk = d) :
    ∃ t events, b.withNoRules.preprocess w = .ok () (w.turned t events) ∧
      (w.turned t events).sent = w.sent ∧
      Laid d.tree t (base ++ [".tmp_processed", "input"]) (outcomes [] .expand d.tree place) := by
  subst disk
  obtain ⟨s, approach⟩ := h.approach
  have apart : Apart place (base ++ [".tmp_processed", "input"]) := by
    have below := (h.apart.symm.append ["input"]).symm
    rwa [List.append_assoc] at below
  obtain ⟨t, events, run, laid⟩ := preprocess_lays (b := b.withNoRules) rfl h.sendable.sound
    approach.named h.sendable.walkable h.direct.input h.points h.free apart (fun ns n c there _ => by
      have text := h.texts (ns ++ [n]) c there
      rw [Processing.lastName_concat] at text
      rw [Processing.result_plain text]
      exact ⟨rfl, (h.fits _ c there).2⟩)
  have stowed : Stowed w.sent w.storage (final (b.withNoRules.preprocess w)) :=
    b.withNoRules.keeps_stowed_preprocess w ⟨rfl, rfl⟩
  rw [run] at stowed
  exact ⟨t, events, run, stowed.1, laid⟩

section Copied

variable {t : Tree} (laid : Laid d.tree t (base ++ [".tmp_processed", "input"])
  (outcomes [] .expand d.tree place))
include laid

theorem Faithful.copied : Transfer.Copied d.tree place t (base ++ [".tmp_processed", "input"]) :=
  Transfer.copied_of_laid h.sendable.sound.tree h.free laid (fun _ _ => h.mem_outcomes)

theorem Faithful.sendable_copy {q : Place} {c : Bytes}
    (inhabited : d.tree.node? (place ++ q) = some (.file c)) :
    Transfer.Sendable { d with tree := t } b.withNoRules.localInput
      (base ++ [".tmp_processed", "input"]) := by
  have sound := laid.disk h.sendable.sound h.free
  have inner : AllProper [".tmp_processed", "input"] := by decide
  have nonempty : q ≠ [] := by
    rintro rfl
    have there := (leads_of_find h.sendable.named).directory h.sendable.sound
    rw [List.append_nil, there] at inhabited
    cases inhabited
  have there : t.node? (base ++ [".tmp_processed", "input"]) = some .directory :=
    laid.above (h.mem_outcomes.mpr inhabited) (List.prefix_append _ _)
      (fun same => nonempty (List.self_eq_append_right.mp same))
  have walkable := Run.walkable_of_laid h.sendable.sound.tree h.free laid h.points.named
    (fun e he => (h.fits _ _ (h.mem_outcomes.mp he)).2)
  have text : b.withNoRules.localInput = extend b.base [".tmp_processed", "input"] := outgoing_eq rfl
  refine ⟨sound, ?_, ?_, walkable.unlinked, walkable.fits⟩
  · have leads := (laid.leads h.sendable.sound h.free h.parent).extended sound inner there
    rw [← text] at leads
    refine leads.find ?_ (h.fits q c inhabited).1
    rw [text]
    exact (named_extend inner (by simp)).nonempty
  · have fits := walkable.fits [] _ (by rw [List.append_nil]; exact there)
    rw [extend_nil] at fits
    exact ((laid.points h.sendable.sound h.free h.points).leads sound there).find walkable.nonempty fits

end Copied

end Faithful

/-! ### The whole run -/

def send (b : Batch) : Run String := do
  b.preprocess
  let path ← b.newStoragePath
  Run.note .uploadStarted
  Transfer.upload b.localInput b.bucket (join path "input")
  return path

def conclude (b : Batch) (path job : String) : Run Unit := do
  b.wait job patience
  Run.note .outputsSought
  Transfer.download b.localOutput b.bucket (join path "output")
  b.postprocess
  Run.note (.postprocessed b.output.text)
  b.cleanUp
  Run.note .finished
  let link ← b.link job
  Run.note (.details link)
  Run.note .thanks

theorem start_eq (b : Batch) : b.start = (do
    let path ← b.send
    Run.note .jobStarted
    let job ← b.create (join (join ("gs://" ++ b.bucket) path) "input")
      (join (join ("gs://" ++ b.bucket) path) "output")
    b.conclude path job) := by
  simp only [start, send, conclude, bind_assoc, pure_bind]

section Stowed

variable {cargo : List Event} {s : Storage}

theorem keeps_stowed_conclude (b : Batch) (path job : String) :
    Keeps (Stowed cargo s) (b.conclude path job) := by
  have waits : Keeps (Stowed cargo s) (b.wait job patience) := by
    refine keeps_wait keeps_stowed_emit (fun w job start hw => ⟨?_, hw.2⟩) b job patience
    have silent : ∀ answer seconds, (told answer seconds).filter Event.isSent = [] := by
      rintro (_ | _) _ <;> rfl
    rw [← hw.1, World.sent, World.sent, looked]
    simp [Event.isSent, silent]
  have downloads : Keeps (Stowed cargo s)
      (Transfer.download b.localOutput b.bucket (join path "output")) :=
    keeps_download keeps_stowed_emit (fun _ => keeps_stowed_files _) (fun _ _ => keeps_stowed_files _) _ _ _
  have reverts : Keeps (Stowed cargo s) b.postprocess :=
    b.keeps_postprocess keeps_stowed_note (fun m output => keeps_stowed_processing m _ _ output)
  have cleans : Keeps (Stowed cargo s) b.cleanUp :=
    b.keeps_cleanUp keeps_stowed_note (keeps_stowed_files _)
  have note : ∀ n, Keeps (Stowed cargo s) (Run.note n) := keeps_stowed_note
  refine Keeps.bind waits (fun _ => Keeps.bind (note _) (fun _ => Keeps.bind downloads (fun _ => ?_)))
  refine Keeps.bind reverts (fun _ => Keeps.bind (note _) (fun _ => Keeps.bind cleans (fun _ => ?_)))
  exact Keeps.bind (note _) (fun _ => Keeps.bind (keeps_link b job) (fun _ =>
    Keeps.bind (note _) (fun _ => note _)))

end Stowed

theorem not_isDirectory_fresh {b : Batch} {d : Disk} {base : Place} (macros : b.macros.isSome = true)
    (sound : d.Sound) (parent : Leads d b.base base)
    (fresh : d.tree.node? (base ++ [".tmp_processed"]) = none) : d.isDirectory b.localInput = false := by
  have inner : AllProper [".tmp_processed", "input"] := by decide
  have free := free_of_missing sound.tree ["input"] (parent.directory sound) fresh
  by_contra there
  obtain ⟨p, found⟩ := found_of_isDirectory (Bool.not_eq_false _ ▸ there)
  obtain ⟨j, same⟩ := parent.follow_extend inner (by simp)
  rw [(find_eq_follow found true).2, outgoing_eq macros, same] at found
  have unlinked := (finds_of_follow found).unlinked inner (parent.directory sound)
    (fun ms along hm target link => ?_)
  · rw [free.absent] at unlinked
    cases unlinked.2
  · rcases free.clear_of_prefix ((List.prefix_append_right_inj base).mpr along) with none | directory
    · rw [none] at link
      cases link
    · rw [directory] at link
      cases link

section Faithful

variable {b : Batch} {w : World} {place base : Place} (h : b.Faithful w.disk place base)
include h

theorem Faithful.send_alike (plain : b.macros = none) {q : Place} {c : Bytes}
    (inhabited : w.disk.tree.node? (place ++ q) = some (.file c)) :
    Alike SameCargo (b.send w) (b.withNoRules.send w) := by
  obtain ⟨t, events, run, sent, laid⟩ := h.preprocess_copies rfl
  have cargo : SameCargo w (w.turned t events) := ⟨rfl, sent⟩
  have idle : b.preprocess w = .ok () w := by
    rw [preprocess, plain]
    rfl
  have source : b.localInput = b.input := by
    rw [localInput, plain]
    rfl
  have same := (h.copied laid).filesBelow_eq h.sendable.sound.tree laid.sound h.sendable.unlinked
  have path : b.newStoragePath w = .ok (b.storagePath w.now w.uuid) w := rfl
  have path' : b.withNoRules.newStoragePath (w.turned t events) =
    .ok (b.storagePath w.now w.uuid) (w.turned t events) := rfl
  rw [send, send, bind_ok idle, bind_ok run, bind_ok path, bind_ok path', source]
  rw [bind_ok (Run.note_apply _ _), bind_ok (Run.note_apply _ _)]
  exact Alike.bind (Transfer.upload_alike b.bucket _ (cargo.after _) h.sendable
    (h.sendable_copy laid inhabited) same) (fun _ _ _ cargo => .ok _ cargo)

theorem Faithful.start_refused (empty : ∀ q c, w.disk.tree.node? (place ++ q) ≠ some (.file c)) :
    ∃ v, b.withNoRules.start w = .error (.failure (.noInput b.withNoRules.localInput)) v ∧
      Stowed w.sent w.storage v := by
  obtain ⟨t, events, run, sent, laid⟩ := h.preprocess_copies rfl
  have fresh : t.node? (base ++ [".tmp_processed"]) = none := by
    rw [laid.rest _ (fun e he => absurd (h.mem_outcomes.mp he) (empty _ _)), h.fresh]
  have missing : Disk.isDirectory { w.disk with tree := t } b.withNoRules.localInput = false :=
    not_isDirectory_fresh (b := b.withNoRules) rfl (laid.disk h.sendable.sound h.free)
      (laid.leads h.sendable.sound h.free h.parent) fresh
  have refused : b.withNoRules.send w = .error (.failure (.noInput b.withNoRules.localInput))
      ((w.turned t events).after (.note .uploadStarted)) := by
    have path : b.withNoRules.newStoragePath (w.turned t events) =
      .ok (b.storagePath w.now w.uuid) (w.turned t events) := rfl
    have source : Disk.isDirectory ((w.turned t events).after (.note .uploadStarted)).disk
      b.withNoRules.localInput = false := missing
    rw [send, bind_ok run, bind_ok path, bind_ok (Run.note_apply _ _), Transfer.upload]
    refine bind_error ?_
    rw [bind_ok (Run.disk_apply _), source]
    rfl
  refine ⟨_, by rw [start_eq, bind_error refused], ?_⟩
  exact (keeps_stowed_note .uploadStarted).of_ok ⟨sent, rfl⟩ (Run.emit_apply _ _)

end Faithful

/-- With nothing to replace, a job with macros uploads the same objects with the same contents as the job
without macros, and asks for the same. But without a file in its input directory it is refused. -/
theorem start_with_no_rules {b : Batch} {w : World} {place base : Place}
    (h : b.Faithful w.disk place base) (plain : b.macros = none) :
    ((∃ q c, w.disk.tree.node? (place ++ q) = some (.file c)) →
      Alike SameCargo (b.send w) (b.withNoRules.send w) ∧
        (final (b.withNoRules.start w)).sent = (final (b.start w)).sent ∧
        (final (b.withNoRules.start w)).storage = (final (b.start w)).storage) ∧
      ((∀ q c, w.disk.tree.node? (place ++ q) ≠ some (.file c)) →
        ∃ v, b.withNoRules.start w = .error (.failure (.noInput b.withNoRules.localInput)) v ∧
          Stowed w.sent w.storage v) := by
  refine ⟨fun ⟨q, c, inhabited⟩ => ?_, fun empty => h.start_refused empty⟩
  have sends := h.send_alike plain inhabited
  have stop : ∀ u v, SameCargo u v → v.sent = u.sent ∧ v.storage = u.storage :=
    fun u v cargo => ⟨cargo.sent, cargo.storage⟩
  refine ⟨sends, ?_⟩
  rw [start_eq, start_eq]
  refine sends.bind_final (Q := fun u v => v.sent = u.sent ∧ v.storage = u.storage) stop
    (fun path u v cargo => ?_)
  refine Alike.bind_final (SameCargo.emit _ u v cargo) stop (fun _ u v cargo => ?_)
  refine Alike.bind_final (SameCargo.create b _ _ u v cargo) stop (fun job u v cargo => ?_)
  -- from here on the jobs may differ, but neither of them sends anything
  obtain ⟨sent, storage⟩ := b.keeps_stowed_conclude path job u ⟨rfl, rfl⟩
  obtain ⟨sent', storage'⟩ := b.withNoRules.keeps_stowed_conclude path job v ⟨rfl, rfl⟩
  rw [sent, sent', storage, storage']
  exact stop u v cargo

/-! ### Small runs -/

def bareSample : Batch := { sample with macros := none }

theorem faithful_bareSample {t : Tree} (sound : t.Sound) (input : t.node? ["w", "in"] = some .directory)
    (fresh : t.node? ["w", ".tmp_processed"] = none) (unlinked : Unlinked t ["w", "in"])
    (walked : ∀ q x, t.node? (["w", "in"] ++ q) = some x → Fits (extend (extend "/w" ["in"]) q))
    (files : ∀ q c, t.node? (["w", "in"] ++ q) = some (.file c) → isHidden (lastName q) = false ∧
      (isCopied (lastName q) = false → ∃ s, c = Utf8.encode s ∧ '\r' ∉ s) ∧
      Fits (extend "/w/.tmp_processed/input" q)) :
    bareSample.Faithful (quiet t).disk ["w", "in"] ["w"] := by
  have disk : (quiet t).disk.Sound := ⟨sound, sound.above ["w"] "in" _ input⟩
  -- what is in the tree plays no role for the absolute form of a path
  have place : ∀ path, (quiet t).disk.absolute path = Disk.absolute ⟨⟨[]⟩, ["w"]⟩ path := fun _ => rfl
  have text : bareSample.input = extend bareSample.base ["in"] := by decide
  have absolute : (quiet t).disk.absolute bareSample.input = extend "/w" ["in"] := by
    rw [place]
    decide
  have absolute' : (quiet t).disk.absolute bareSample.base = "/w" := by
    rw [place]
    decide
  have outgoing :
      (quiet t).disk.absolute bareSample.withNoRules.localInput = "/w/.tmp_processed/input" := by
    rw [place]
    decide
  have parent : Leads (quiet t).disk bareSample.base ["w"] := ⟨_, .done _ _⟩
  have base : Leads (quiet t).disk "/w" ["w"] :=
    (IsRoot.leads (Or.inl rfl) _).extended disk (show AllProper ["w"] by decide) disk.here
  have found : ∀ {s}, Leads (quiet t).disk s ["w"] → Fits (extend s ["in"]) →
      (quiet t).disk.find true (extend s ["in"]) = .ok (.node ["w", "in"] .directory) :=
    fun leads fits => leads.find_present disk (List.cons_ne_nil "in" []) fits input (by simp) true
  refine ⟨⟨disk, ?_, ?_, unlinked, ?_⟩, parent, ?_, by decide, fresh,
    fun q c there => (files q c there).1, fun q c there => (files q c there).2.1,
    fun q c there => ⟨by decide, ?_⟩⟩
  · rw [text]
    exact found parent (by decide)
  · rw [absolute]
    exact found base (by decide)
  · rw [absolute]
    exact walked
  · rw [absolute']
    exact base
  · rw [outgoing]
    exact (files q c there).2.2

def assorted : Tree :=
  ⟨[(["w"], .directory), (["w", "in"], .directory),
    (["w", "in", "a.sql"], .file (Utf8.encode "é;\n".toList)), (["w", "in", "d"], .directory),
    (["w", "in", "d", "b.zip"], .file [0x0d, 0xff]), (["w", "in", "e"], .directory)]⟩

theorem faithful_assorted : bareSample.Faithful (quiet assorted).disk ["w", "in"] ["w"] := by
  have root : ["w", "in"] ≠ ([] : Place) := by simp
  refine faithful_bareSample (Tree.sound_of_entries (by decide) (by decide)) rfl rfl ?_
    (Tree.forall_below root (by decide)) (fun q c there => ?_)
  · intro q target there
    simpa [assorted] using Tree.mem_entries_of_link there
  · have known := Tree.forall_below root
      (P := fun q x => x = .directory ∨ isHidden (lastName q) = false ∧
        Fits (extend "/w/.tmp_processed/input" q) ∧
        (isCopied (lastName q) = true ∨ x = .file (Utf8.encode "é;\n".toList)))
      (by decide) q _ there
    rcases known with h | ⟨visible, fits, copied | h⟩
    · cases h
    · exact ⟨visible, fun other => absurd copied (by simp [other]), fits⟩
    · cases h
      exact ⟨visible, fun _ => ⟨_, rfl, by decide⟩, fits⟩

theorem start_with_no_rules_assorted :
    bareSample.Faithful (quiet assorted).disk ["w", "in"] ["w"] ∧
      (final (bareSample.withNoRules.start (quiet assorted))).sent =
        (final (bareSample.start (quiet assorted))).sent ∧
      (final (bareSample.withNoRules.start (quiet assorted))).storage =
        (final (bareSample.start (quiet assorted))).storage :=
  ⟨faithful_assorted, ((start_with_no_rules faithful_assorted rfl).1 ⟨["a.sql"], _, rfl⟩).2⟩

/-- An empty input directory is sent without macros, and refused with them. -/
theorem start_with_no_rules_empty :
    let empty : Tree := ⟨[(["w"], .directory), (["w", "in"], .directory)]⟩
    bareSample.Faithful (quiet empty).disk ["w", "in"] ["w"] ∧
      (∃ v, bareSample.start (quiet empty) = .ok () v ∧ v.sent.any Event.isCreation = true) ∧
      ∃ v, bareSample.withNoRules.start (quiet empty) =
          .error (.failure (.noInput ".tmp_processed/input")) v ∧ v.sent = [] := by
  intro empty
  have root : ["w", "in"] ≠ ([] : Place) := by simp
  have none : ∀ q c, empty.node? (["w", "in"] ++ q) ≠ some (.file c) := by
    intro q c there
    cases Tree.forall_below root (P := fun _ x => x = .directory) (by decide +kernel) q _ there
  have faithful : bareSample.Faithful (quiet empty).disk ["w", "in"] ["w"] := by
    refine faithful_bareSample (Tree.sound_of_entries (by decide) (by decide +kernel)) rfl rfl ?_
      (Tree.forall_below root (by decide +kernel)) (fun q c there => absurd there (none q c))
    intro q target there
    simpa [empty] using Tree.mem_entries_of_link there
  obtain ⟨_, u, run, sent⟩ := ok_of_run' (x := bareSample.start) (s := quiet empty)
    (f := fun v => v.sent.any Event.isCreation) (b := true) (by decide +kernel)
  obtain ⟨v, refused, stowed⟩ := faithful.start_refused none
  rw [show bareSample.withNoRules.localInput = ".tmp_processed/input" by decide +kernel] at refused
  exact ⟨faithful, ⟨u, run, sent⟩, v, refused, stowed.1⟩

end Batch

end SqlMigration
