import Mathlib.Logic.Function.Iterate
import SqlMigration.Proofs.Job.Confinement
import SqlMigration.Proofs.Job.Layout
import SqlMigration.Proofs.Job.Polling
import SqlMigration.Proofs.Job.Transfer

/-!
# The order of events

A job is created when all files have been uploaded. It is looked at when it has
been created, and its results are listed and fetched when a look has found it
finished. Until they are listed, the disk stays as preprocessing has left it.
-/

set_option autoImplicit false

namespace SqlMigration

open SqlMigration.Path Files Effect

/-! ### Uploads -/

/-- A property that does not depend on the storage, and that goes on to hold when one of some events is
logged. -/
structure Lasting (S : Event → Prop) (I : World → Prop) : Prop where
  emit : ∀ e, S e → Keeps I (Run.emit e)
  stored : ∀ f, Keeps I (Transfer.changeStorage f)

namespace Transfer

def Outgoing (bucket target : String) : Event → Prop
  | .note _ | .gotBucket _ | .madeBucket _ => True
  | .uploaded b object => b = bucket ∧ ∃ ns, AllProper ns ∧ ns ≠ [] ∧ object = extend target ns
  | _ => False

section Lasting

variable {S : Event → Prop} {I : World → Prop} (h : Lasting S I) {bucket target : String}
include h

theorem keeps_uploadFile {top directory n : String} (note : ∀ n, S (.note n))
    (uploaded : S (.uploaded bucket (join (join target (below directory top)) n))) :
    Keeps I (uploadFile bucket target top directory n) :=
  Keeps.bind (h.emit _ (note _)) (fun _ => Keeps.bind (Run.keeps_read I _) (fun _ =>
    Keeps.bind (h.emit _ uploaded) (fun _ => h.stored _)))

theorem keeps_openBucket (note : ∀ n, S (.note n)) (got : ∀ b, S (.gotBucket b))
    (made : ∀ b, S (.madeBucket b)) : Keeps I (openBucket bucket) := by
  refine Keeps.bind (h.emit _ (note _)) (fun _ => ?_)
  refine Keeps.bind (h.emit _ (got _)) (fun _ => Keeps.get_bind (fun w hw => ?_))
  cases w.storage.getBucket bucket with
  | ok u => exact hw
  | error f =>
    cases f with
    | forbidden b => exact hw
    | noBucket b =>
      have created : Keeps I (do
          Run.note (.bucketMissing b)
          Run.emit (.madeBucket b)
          changeStorage (·.createBucket b)) :=
        Keeps.bind (h.emit _ (note _)) (fun _ => Keeps.bind (h.emit _ (made _)) (fun _ => h.stored _))
      exact created w hw

theorem keeps_upload (allowed : ∀ e, Outgoing bucket target e → S e)
    (tidy : ∀ w, I w → w.disk.tree.Tidy) (directory : String) :
    Keeps I (upload directory bucket target) := by
  have walk : ∀ top, Keeps I (Run.walkAll
      (fun here names => names.forM (uploadFile bucket target top here)) top) := by
    intro top
    refine Run.keeps_walkAll (V := Below top) (N := Proper) (fun w s n hw => list_proper (tidy w hw))
      (fun s n => Below.join) ?_ (Below.refl top)
    rintro _ names ⟨ns, hns, rfl⟩ proper
    refine Keeps.forM names (fun n hn => keeps_uploadFile h (fun _ => allowed _ trivial) (allowed _ ?_))
    refine ⟨rfl, ns ++ [n], hns.concat (proper n hn), by simp, ?_⟩
    rw [below_extend hns, join_joined_name hns (proper n hn)]
  have rest : Keeps I (do
      openBucket bucket
      let top := (← Run.disk).absolute directory
      Run.walkAll (fun here names => names.forM (uploadFile bucket target top here)) top
      Run.note (.uploaded bucket target)) :=
    Keeps.bind (keeps_openBucket h (fun _ => allowed _ trivial) (fun _ => allowed _ trivial)
      (fun _ => allowed _ trivial)) (fun _ => Run.keeps_disk_of (fun d =>
      Keeps.bind (walk _) (fun _ => h.emit _ (allowed _ trivial))))
  exact Run.keeps_disk_of (fun d =>
    Keeps.ite (fun _ => Keeps.bind (Keeps.throw _) (fun _ => rest)) (fun _ => rest))

end Lasting

/-- On a disk that is as it was, some events have been logged after the old ones, and one in
particular. -/
def Gained (d : Disk) (old : List Event) (e : Event) (w : World) : Prop :=
  w.disk = d ∧ ∃ t, w.events = old ++ t ∧ e ∈ t

def Continued (d : Disk) (old : List Event) (w : World) : Prop :=
  w.disk = d ∧ ∃ t, w.events = old ++ t

theorem lasting_gained (d : Disk) (old : List Event) (e : Event) :
    Lasting (fun _ => True) (Gained d old e) where
  emit new _ := Keeps.modify (fun w ⟨hd, t, ht, hm⟩ =>
    ⟨hd, t ++ [new], by rw [ht, List.append_assoc], List.mem_append_left _ hm⟩)
  stored _ := Keeps.modify (fun _ hw => hw)

theorem lasting_continued (d : Disk) (old : List Event) : Lasting (fun _ => True) (Continued d old) where
  emit new _ := Keeps.modify (fun w ⟨hd, t, ht⟩ => ⟨hd, t ++ [new], by rw [ht, List.append_assoc]⟩)
  stored _ := Keeps.modify (fun _ hw => hw)

theorem uploadFile_logged {bucket target top directory n : String} {w w' : World}
    (run : uploadFile bucket target top directory n w = .ok () w') :
    w'.events = w.events ++ [.note (.uploading (join directory n))] ++
      [.uploaded bucket (join (join target (below directory top)) n)] := by
  rw [uploadFile, bind_ok (Run.note_apply _ w)] at run
  obtain ⟨content, w₂, found, last⟩ := ok_of_bind run
  obtain rfl := (Run.keeps_read (fun v => v = w.after _) _).of_ok rfl found
  rw [bind_ok (Run.emit_apply _ _)] at last
  cases last
  rfl

theorem uploadWalk_complete {bucket target top : String} {d : Disk} (hd : d.Sound) {p : Place}
    (hl : Leads d top p) (ht : top ≠ "") {ns : List String} {n : String} {x : Node}
    (there : d.tree.node? (p ++ (ns ++ [n])) = some x) (fits : Fits (extend top (ns ++ [n])))
    (plain : d.isDirectory (extend top (ns ++ [n])) = false) {old : List Event} {w w' : World}
    (hw : Continued d old w)
    (run : Run.walkAll (fun here names => names.forM (uploadFile bucket target top here)) top w =
      .ok () w') :
    Gained d old (.uploaded bucket (extend target (ns ++ [n]))) w' := by
  have proper : AllProper (ns ++ [n]) := (hd.tree.proper _ _ there).right
  have object : join (join target (below (extend top ns) top)) n = extend target (ns ++ [n]) := by
    rw [below_extend proper.left, join_joined_name proper.left proper.last]
  have each : ∀ {J : World → Prop}, Lasting (fun _ => True) J → ∀ s m,
      Keeps J (uploadFile bucket target top s m) :=
    fun h s m => keeps_uploadFile h (fun _ => trivial) trivial
  -- the walk keeps the log going, and once the object is in the log it stays there
  have goes := each (lasting_continued d old)
  have stays := each (lasting_gained d old (.uploaded bucket (extend target (ns ++ [n]))))
  refine Run.walkAll_reaches hd hl ht (fun w hw => hw.1)
    (fun s names => Keeps.forM names (fun m _ => goes s m))
    (fun s names => Keeps.forM names (fun m _ => stays s m)) there fits plain ?_ hw run
  intro names v v' hn hv visited
  refine Keeps.forM_reaches hn (fun m _ => goes _ m) (fun m _ => stays _ m) ?_ hv visited
  intro u u' hu uploaded
  have kept := ((goes _ n).of_ok hu uploaded).1
  obtain ⟨_, t, ht⟩ := hu
  refine ⟨kept, t ++ [.note (.uploading (join (extend top ns) n))] ++
    [.uploaded bucket (extend target (ns ++ [n]))], ?_, by simp⟩
  rw [uploadFile_logged uploaded, ht, object]
  simp only [List.append_assoc]

theorem upload_complete {directory bucket target : String} {v v' : World}
    (run : upload directory bucket target v = .ok () v') (hd : v.disk.Sound) {p : Place}
    (hl : v.disk.find true (v.disk.absolute directory) = .ok (.node p .directory)) {q : Place} {x : Node}
    (there : v.disk.tree.node? (p ++ q) = some x) (fits : Fits (extend (v.disk.absolute directory) q))
    (plain : v.disk.isDirectory (extend (v.disk.absolute directory) q) = false) :
    Gained v.disk v.events (.uploaded bucket (extend target q)) v' := by
  have nonempty : v.disk.absolute directory ≠ "" := by
    intro e
    rw [e, Disk.find, if_neg (by decide), if_pos rfl] at hl
    cases hl
  rcases List.eq_nil_or_concat q with rfl | ⟨ns, n, rfl⟩
  · rw [extend_nil, Disk.isDirectory, Disk.node, hl] at plain
    cases plain
  rw [List.concat_eq_append] at *
  rw [upload, bind_ok (Run.disk_apply v)] at run
  split at run
  · cases run
  obtain ⟨_, v₁, opened, run₁⟩ := ok_of_bind run
  have start : Continued v.disk v.events v := ⟨rfl, [], by simp⟩
  have ready := (keeps_openBucket (lasting_continued v.disk v.events) (fun _ => trivial)
    (fun _ => trivial) (fun _ => trivial)).of_ok start opened
  rw [bind_ok (Run.disk_apply v₁), ready.1] at run₁
  obtain ⟨_, v₂, walked, noted⟩ := ok_of_bind run₁
  have gained := uploadWalk_complete hd (leads_of_find hl) nonempty there fits plain ready walked
  exact ((lasting_gained _ _ _).emit _ trivial).of_ok gained noted

end Transfer

/-! ### Looks and listings -/

def Event.isLook : Event → Bool
  | .requested (.get _) => true
  | _ => false

def Event.isListing : Event → Bool
  | .listed _ _ => true
  | _ => false

def looksIn (events : List Event) : Nat := events.countP Event.isLook

theorem looksIn_concat (events : List Event) (e : Event) :
    looksIn (events ++ [e]) = looksIn events + if e.isLook then 1 else 0 := by
  rw [looksIn, List.countP_append, List.countP_singleton]
  rfl

theorem JobState.isFinal_iff (s : JobState) : s.isFinal = true ↔ s = .completed ∨ s = .paused := by
  cases s <;> decide

theorem Service.reported_eq (s : Service) (n : Nat) :
    s.reported n = (Service.afterState^[n] s).state := by
  induction n generalizing s with
  | zero => rfl
  | succ n ih => exact ih s.afterState

namespace Batch

/-! ### What an event requires -/

def outStem (b : Batch) (w : World) : String := join (b.storagePath w.now w.uuid) "input"

def backStem (b : Batch) (w : World) : String := join (b.storagePath w.now w.uuid) "output"

/-- Preprocessing has succeeded, and all that it has left below the directory for what goes out and is
no directory has been uploaded. -/
def Sent (b : Batch) (w : World) (before : List Event) : Prop :=
  ∃ w₀, b.preprocess w = .ok () w₀ ∧ ∀ p,
    w₀.disk.find true (w₀.disk.absolute b.localInput) = .ok (.node p .directory) →
    ∀ q x, w₀.disk.tree.node? (p ++ q) = some x →
      Fits (extend (w₀.disk.absolute b.localInput) q) →
      w₀.disk.isDirectory (extend (w₀.disk.absolute b.localInput) q) = false →
      .uploaded b.bucket (extend (b.outStem w) q) ∈ before

/-- A job has been created, and its name has been given. -/
def Created (w : World) (before : List Event) : Prop :=
  ∃ job, w.service.created = .ok job ∧ ∃ earlier r later, before = earlier ++
    .requested (.create r) :: .answered (Message.textField "name" job) :: later

/-- A look at the job has found it completed or paused. -/
def Finished (w : World) (before : List Event) : Prop :=
  ∃ job, w.service.created = .ok job ∧ ∃ earlier state seconds later,
    before = earlier ++ .requested (.get job) :: .note (.status state seconds) :: later ∧
      w.service.reported (looksIn earlier) = .ok state ∧ (state = .completed ∨ state = .paused)

/-- What must have happened before an event. -/
def Requires (b : Batch) (w : World) (before : List Event) : Event → Prop
  | .uploaded bucket object =>
    bucket = b.bucket ∧ ∃ ns, AllProper ns ∧ ns ≠ [] ∧ object = extend (b.outStem w) ns
  | .requested (.create r) => b.Sent w before ∧ (Named b.bucket →
      r.source = "gs://" ++ b.bucket ++ "/" ++ b.outStem w ∧
        r.target = "gs://" ++ b.bucket ++ "/" ++ b.backStem w)
  | .requested (.get name) => w.service.created = .ok name ∧ Created w before
  | .requested (.list _) => False
  | .listed bucket stem => bucket = b.bucket ∧ stem = b.backStem w ∧ Finished w before
  | .downloaded bucket object _ => bucket = b.bucket ∧
      Storage.startsWith (b.backStem w) object = true ∧ Finished w before ∧
      .listed b.bucket (b.backStem w) ∈ before
  | _ => True

def Ordered (R : List Event → Event → Prop) (trace : List Event) : Prop :=
  ∀ before e after, trace = before ++ e :: after → R before e

theorem Ordered.concat {R : List Event → Event → Prop} {trace : List Event} {e : Event}
    (h : Ordered R trace) (he : R trace e) : Ordered R (trace ++ [e]) := by
  intro before x after split
  -- the event is the new one, or it stands in the old trace with the new one behind it
  rcases List.eq_nil_or_concat after with rfl | ⟨rest, last, rfl⟩
  · obtain ⟨rfl, same⟩ := List.append_inj' split rfl
    cases same
    exact he
  · rw [List.concat_eq_append, ← List.cons_append, ← List.append_assoc] at split
    exact h before x rest (List.append_inj' split rfl).1

/-- What has been logged since the start is in order. -/
structure Logged (b : Batch) (w v : World) (trace : List Event) : Prop where
  events : v.events = w.events ++ trace
  now : v.now = w.now
  uuid : v.uuid = w.uuid
  service : v.service = Service.afterState^[looksIn trace] w.service
  ordered : Ordered (b.Requires w) trace

theorem Logged.refl (b : Batch) (w : World) : b.Logged w w [] where
  events := (List.append_nil _).symm
  now := rfl
  uuid := rfl
  service := rfl
  ordered := fun _ _ _ h => absurd h (by simp)

theorem Logged.emit {b : Batch} {w v : World} {trace : List Event} (h : b.Logged w v trace) {e : Event}
    (he : b.Requires w trace e) (look : e.isLook = false) : b.Logged w (v.after e) (trace ++ [e]) where
  events := by rw [World.after, h.events, List.append_assoc]
  now := h.now
  uuid := h.uuid
  service := by
    rw [looksIn_concat, look]
    exact h.service
  ordered := h.ordered.concat he

theorem Logged.storage {b : Batch} {w v : World} {trace : List Event} (h : b.Logged w v trace)
    (storage : Storage) : b.Logged w { v with storage := storage } trace :=
  ⟨h.events, h.now, h.uuid, h.service, h.ordered⟩

theorem Logged.disk {b : Batch} {w v : World} {trace : List Event} (h : b.Logged w v trace) (d : Disk) :
    b.Logged w { v with disk := d } trace :=
  ⟨h.events, h.now, h.uuid, h.service, h.ordered⟩

/-- A run in order, of whose events and whose disk something is known. -/
def Underway (b : Batch) (w : World) (F : List Event → Prop) (D : Disk → Prop) (v : World) : Prop :=
  ∃ trace, b.Logged w v trace ∧ F trace ∧ D v.disk

def Stable (F : List Event → Prop) : Prop := ∀ trace e, F trace → F (trace ++ [e])

/-- A run in order, with the disk as preprocessing has left it unless results have been listed. -/
def Orderly (b : Batch) (w v : World) : Prop :=
  ∃ trace, b.Logged w v trace ∧
    ((∃ bucket stem, .listed bucket stem ∈ trace) ∨ v.disk = (final (b.preprocess w)).disk)

def Resting (b : Batch) (w : World) (d : Disk) : Prop := d = (final (b.preprocess w)).disk

theorem orderly_of_resting {b : Batch} {w v : World} {F : List Event → Prop}
    (h : b.Underway w F (b.Resting w) v) : b.Orderly w v := by
  obtain ⟨trace, logged, _, rest⟩ := h
  exact ⟨trace, logged, Or.inr rest⟩

theorem stable_sent (b : Batch) (w : World) : Stable (b.Sent w) := by
  rintro trace e ⟨w₀, pre, all⟩
  exact ⟨w₀, pre, fun p hp q x hx fits plain => List.mem_append_left _ (all p hp q x hx fits plain)⟩

theorem stable_created (w : World) : Stable (Created w) := by
  rintro _ e ⟨job, made, earlier, r, later, rfl⟩
  exact ⟨job, made, earlier, r, later ++ [e], by simp⟩

theorem stable_finished (w : World) : Stable (Finished w) := by
  rintro _ e ⟨job, made, earlier, state, seconds, later, rfl, h⟩
  exact ⟨job, made, earlier, state, seconds, later ++ [e], by simp, h⟩

/-! ### The stages of a job -/

section Underway

variable {b : Batch} {w : World} {F : List Event → Prop} {D : Disk → Prop} (stable : Stable F)
include stable

theorem lasting_underway : Lasting (fun e => e.isLook = false ∧ ∀ trace, F trace → b.Requires w trace e)
    (b.Underway w F D) where
  emit e he := Keeps.modify (fun _ ⟨t, logged, facts, disk⟩ =>
    ⟨t ++ [e], logged.emit (he.2 t facts) he.1, stable t e facts, disk⟩)
  stored _ := Keeps.modify (fun _ ⟨t, logged, facts, disk⟩ =>
    ⟨t, logged.storage _, facts, disk⟩)

theorem keeps_note (n : Note) : Keeps (b.Underway w F D) (Run.note n) :=
  (lasting_underway stable).emit _ ⟨rfl, fun _ _ => trivial⟩

omit stable in
theorem keeps_anyFiles {α : Type} (free : ∀ d, D d) (action : Action α) :
    Keeps (b.Underway w F D) (Run.files action) :=
  Run.keeps_files (fun _ ⟨t, logged, facts, _⟩ =>
    ⟨t, logged.disk _, facts, free _⟩)

end Underway

theorem newStoragePath_underway {b : Batch} {w : World} {F : List Event → Prop} {D : Disk → Prop}
    {K : World → Prop} : Takes (b.Underway w F D)
      (fun path v => path = b.storagePath w.now w.uuid ∧ b.Underway w F D v) K b.newStoragePath := by
  intro v hv
  have given : b.newStoragePath v = .ok (b.storagePath v.now v.uuid) v := rfl
  obtain ⟨t, logged, rest⟩ := hv
  rw [given]
  exact ⟨by rw [logged.now, logged.uuid], t, logged, rest⟩

theorem preprocess_stage (b : Batch) (w : World) :
    Takes (fun v => v = w)
      (fun _ => b.Underway w (fun _ => ∃ w₀, b.preprocess w = .ok () w₀) (b.Resting w))
      (b.Orderly w) b.preprocess := by
  have stable : Stable (fun _ => True) := fun _ _ _ => trivial
  have keeps : Keeps (b.Underway w (fun _ => True) (fun _ => True)) b.preprocess :=
    b.keeps_preprocess (keeps_note stable) (fun m => Processing.keeps_processDirectory
      (keeps_note stable) (keeps_anyFiles (fun _ => trivial)) m .expand _ _)
  have start : b.Underway w (fun _ => True) (fun _ => True) w := ⟨[], Logged.refl b w, trivial, trivial⟩
  refine Takes.intro (fun v u v' hv run => ?_) (fun v e v' hv run => ?_)
  · rw [hv] at run
    obtain ⟨t, logged, _⟩ := keeps.of_ok start run
    exact ⟨t, logged, ⟨v', run⟩, by rw [Resting, run]; rfl⟩
  · rw [hv] at run
    obtain ⟨t, logged, _⟩ := keeps.of_error start run
    exact ⟨t, logged, Or.inr (by rw [run]; rfl)⟩

theorem upload_stage {b : Batch} {w : World} (sound : (final (b.preprocess w)).disk.Sound) :
    Takes (b.Underway w (fun _ => ∃ w₀, b.preprocess w = .ok () w₀) (b.Resting w))
      (fun _ => b.Underway w (b.Sent w) (b.Resting w)) (b.Orderly w)
      (Transfer.upload b.localInput b.bucket (b.outStem w)) := by
  have stable : Stable (fun _ => ∃ w₀, b.preprocess w = .ok () w₀) := fun _ _ h => h
  have allowed : ∀ e, Transfer.Outgoing b.bucket (b.outStem w) e → e.isLook = false ∧
      ∀ trace, (∃ w₀, b.preprocess w = .ok () w₀) → b.Requires w trace e := by
    intro e he
    cases e with
    | note n => exact ⟨rfl, fun _ _ => trivial⟩
    | gotBucket n => exact ⟨rfl, fun _ _ => trivial⟩
    | madeBucket n => exact ⟨rfl, fun _ _ => trivial⟩
    | uploaded bucket object => exact ⟨rfl, fun _ _ => he⟩
    | _ => exact he.elim
  have keeps := Transfer.keeps_upload (lasting_underway (b := b) (w := w) (D := b.Resting w) stable)
    allowed (fun v ⟨_, _, _, rest⟩ => by rw [rest]; exact sound.tree.tidy) b.localInput
  refine Takes.intro (fun v u v' hv run => ?_)
    (fun v e v' hv run => orderly_of_resting (keeps.of_error hv run))
  obtain ⟨trace', logged', ⟨w₀, pre⟩, rest'⟩ := keeps.of_ok hv run
  obtain ⟨trace, logged, _, rest⟩ := hv
  have disk : v.disk = w₀.disk := by
    rw [rest, pre]
    rfl
  refine ⟨trace', logged', ⟨w₀, pre, fun p hp q x hx fits plain => ?_⟩, rest'⟩
  rw [← disk] at hp hx fits plain
  obtain ⟨_, t, ht, mem⟩ := Transfer.upload_complete run (by rw [rest]; exact sound) hp hx fits plain
  -- what the upload has added to the log is a part of what has been logged since the start
  rw [logged.events, logged'.events, List.append_assoc] at ht
  rw [List.append_cancel_left ht]
  exact List.mem_append_right _ mem

theorem address_eq (b : Batch) (w : World) (named : Named b.bucket) {n : String} (hn : Proper n) :
    join (join ("gs://" ++ b.bucket) (b.storagePath w.now w.uuid)) n =
      "gs://" ++ b.bucket ++ "/" ++ join (b.storagePath w.now w.uuid) n := by
  have relative := b.storagePath_relative w.now w.uuid
  have named' : Named ("gs://" ++ b.bucket) := by
    refine ⟨by simp, ?_⟩
    have chars : b.bucket.toList ≠ [] := mt String.toList_eq_nil_iff.mp named.nonempty
    rw [endsWithSlash, String.toList_append, List.getLast?_append_of_ne_nil _ chars]
    exact named.noFinalSlash
  rw [join_assoc (b.storagePath_ne_empty w.now w.uuid) relative hn,
    named'.join_eq (by rw [isAbsolute_join hn, relative])]

theorem create_apply (b : Batch) (source target : String) (v : World) :
    ∃ storage, b.create source target v =
      match v.service.created with
      | .ok job => .ok job (World.after
          { v.after (.requested (.create (b.request v.now source target))) with storage := storage }
          (.answered (Message.textField "name" job)))
      | .error r => .error (.failure (.service r))
          { v.after (.requested (.create (b.request v.now source target))) with storage := storage } := by
  rw [create, bind_ok (get_apply v), bind_ok (Run.emit_apply _ _)]
  refine ⟨v.service.converter.elim v.storage fun c => c.act source target v.storage, ?_⟩
  cases v.service.created <;> cases v.service.converter <;> rfl

theorem create_events (b : Batch) (source target : String) (v : World) :
    ∃ answers, (final (b.create source target v)).events =
        v.events ++ .requested (.create (b.request v.now source target)) :: answers ∧
      ∀ job, v.service.created = .ok job → answers = [.answered (Message.textField "name" job)] ∧
        ∃ v', b.create source target v = .ok job v' := by
  obtain ⟨storage, run⟩ := b.create_apply source target v
  rw [run]
  cases v.service.created with
  | error r => exact ⟨[], rfl, (fun _ h => nomatch h)⟩
  | ok job =>
    refine ⟨[.answered (Message.textField "name" job)], by simp [final, World.after], ?_⟩
    rintro _ ⟨⟩
    exact ⟨rfl, _, rfl⟩

theorem created_iterate (s : Service) (n : Nat) : (Service.afterState^[n] s).created = s.created := by
  induction n generalizing s with
  | zero => rfl
  | succ n ih =>
    rw [Function.iterate_succ_apply, ih, Service.afterState]
    split <;> rfl

theorem create_stage {b : Batch} {w : World} {D : Disk → Prop} {K : World → Prop} {source target : String}
    (stop : ∀ v, b.Underway w (b.Sent w) D v → K v)
    (hs : Named b.bucket → source = "gs://" ++ b.bucket ++ "/" ++ b.outStem w)
    (ht : Named b.bucket → target = "gs://" ++ b.bucket ++ "/" ++ b.backStem w) :
    Takes (b.Underway w (b.Sent w) D)
      (fun job v => w.service.created = .ok job ∧ b.Underway w (Created w) D v) K
      (b.create source target) := by
  rintro v ⟨trace, logged, sent, disk⟩
  obtain ⟨storage, run⟩ := b.create_apply source target v
  have same : v.service.created = w.service.created := by rw [logged.service, created_iterate]
  have asked := logged.emit (e := .requested (.create (b.request v.now source target)))
    ⟨sent, fun named => ⟨hs named, ht named⟩⟩ rfl
  rw [run, same]
  cases made : w.service.created with
  | ok job =>
    have given := (asked.storage storage).emit
      (e := .answered (Message.textField "name" job)) trivial rfl
    refine ⟨rfl, _, given, ⟨job, made, trace, b.request v.now source target, [], ?_⟩, disk⟩
    rw [List.append_assoc]
    rfl
  | error r => exact stop _ ⟨_, asked.storage storage, stable_sent b w _ _ sent, disk⟩

section Waiting

variable {b : Batch} {w : World} {job : String} (made : w.service.created = .ok job)
include made

theorem Logged.looked {v : World} {trace : List Event} (h : b.Logged w v trace)
    (created : Created w trace) (start : Rat) :
    ∃ trace', b.Logged w (looked v job start) trace' ∧ Created w trace' ∧
      ∀ state, v.service.state = .ok state → state.isFinal = true → Finished w trace' := by
  let sought := trace ++ [.slept pause] ++ [.note (.workflowSought job)]
  let seconds := elapsed start (v.clock + pause + v.lag)
  have created' : Created w sought := stable_created w _ _ (stable_created w _ _ created)
  have asked : Ordered (b.Requires w) (sought ++ [.requested (.get job)]) :=
    ((h.ordered.concat (e := .slept pause) trivial).concat (e := .note _) trivial).concat
      (e := .requested (.get _)) ⟨made, created'⟩
  have count : looksIn sought = looksIn trace := by
    simp only [sought, looksIn_concat, Event.isLook, Bool.false_eq_true, if_false, Nat.add_zero]
  have events : (Batch.looked v job start).events =
      w.events ++ (sought ++ [.requested (.get job)] ++ told v.service.state seconds) := by
    rw [Batch.looked, h.events]
    simp only [sought, seconds, List.append_assoc]
  have service : (Batch.looked v job start).service =
      Service.afterState^[looksIn (sought ++ [.requested (.get job)])] w.service := by
    rw [looksIn_concat, count, Event.isLook, if_pos rfl, Function.iterate_succ_apply', ← h.service]
    rfl
  rcases answer : v.service.state with r | state
  · rw [answer, told, List.append_nil] at events
    refine ⟨_, ⟨events, h.now, h.uuid, service, asked⟩, stable_created w _ _ created', ?_⟩
    intro _ absurd
    cases absurd
  · rw [answer] at events
    refine ⟨_, ⟨events, h.now, h.uuid, ?_, asked.concat (e := .note (.status state seconds)) trivial⟩,
      stable_created w _ _ (stable_created w _ _ created'), ?_⟩
    · rw [service, told, looksIn_concat (e := .note (.status state seconds))]
      rfl
    · rintro _ ⟨⟩ final
      refine ⟨job, made, sought, state, seconds, [], ?_, ?_, state.isFinal_iff.mp final⟩
      · rw [told, List.append_assoc]
        rfl
      · rw [count, Service.reported_eq, ← h.service, answer]

theorem poll_stage {D : Disk → Prop} {K : World → Prop}
    (stop : ∀ v, b.Underway w (Created w) D v → K v) (limit : Int) (start : Rat) (fuel : Nat)
    (seconds : Int) :
    Takes (b.Underway w (Created w) D) (fun _ => b.Underway w (Finished w) D) K
      (b.poll job limit start fuel seconds) := by
  -- without fuel or time left the run stops, so that only a look can end the wait well
  have givesUp : ∀ seconds, Takes (b.Underway w (Created w) D) (fun _ => b.Underway w (Finished w) D) K
      (poll.giveUp b job seconds) := fun seconds =>
    (keeps_link b _).takes stop |>.bind (fun _ =>
      ((keeps_note (stable_created w) _).takes stop).bind (fun _ => Takes.throw _ stop))
  induction fuel generalizing seconds with
  | zero => exact givesUp seconds
  | succ fuel ih =>
    intro v hv
    by_cases early : seconds < limit
    · obtain ⟨trace, logged, created, disk⟩ := hv
      obtain ⟨trace', logged', created', finished⟩ := logged.looked made created start
      rw [poll_succ b _ start fuel early]
      rcases answer : v.service.state with r | state
      · exact stop _ ⟨trace', logged', created', disk⟩
      · by_cases done : state.isFinal = true
        · simp only [if_pos done]
          exact ⟨trace', logged', finished state answer done, disk⟩
        · simp only [if_neg done]
          exact ih _ _ ⟨trace', logged', created', disk⟩
    · rw [poll, if_neg early]
      exact givesUp seconds v hv

theorem wait_stage {D : Disk → Prop} {K : World → Prop}
    (stop : ∀ v, b.Underway w (Created w) D v → K v) (limit : Int) :
    Takes (b.Underway w (Created w) D) (fun _ => b.Underway w (Finished w) D) K (b.wait job limit) :=
  fun v hv => poll_stage made stop limit v.clock (looks limit v) 0 v hv

end Waiting

def Fetching (b : Batch) (w : World) (before : List Event) : Prop :=
  Finished w before ∧ .listed b.bucket (b.backStem w) ∈ before

theorem stable_fetching (b : Batch) (w : World) : Stable (b.Fetching w) :=
  fun trace e h => ⟨stable_finished w trace e h.1, List.mem_append_left _ h.2⟩

theorem orderly_of_fetching {b : Batch} {w v : World} {D : Disk → Prop}
    (h : b.Underway w (b.Fetching w) D v) : b.Orderly w v := by
  obtain ⟨trace, logged, ⟨_, listed⟩, _⟩ := h
  exact ⟨trace, logged, Or.inl ⟨_, _, listed⟩⟩

theorem keeps_downloadObject {b : Batch} {w : World} (directory : Given) {o : String × Bytes}
    (below : Storage.startsWith (b.backStem w) o.1 = true) :
    Keeps (b.Underway w (b.Fetching w) (fun _ => True))
      (Transfer.downloadObject directory b.bucket (b.backStem w) o) := by
  have any : ∀ {α : Type} (a : Action α), Keeps (b.Underway w (b.Fetching w) (fun _ => True))
      (Run.files a) := fun a => keeps_anyFiles (fun _ => trivial) a
  refine Keeps.bind (keeps_needed directory) (fun s => Keeps.bind (any _) (fun _ =>
    Keeps.bind (keeps_note (stable_fetching b w) _) (fun _ => Keeps.bind ?_ (fun _ => any _))))
  exact (lasting_underway (stable_fetching b w)).emit _ ⟨rfl, fun _ h => ⟨rfl, below, h⟩⟩

theorem download_stage {b : Batch} {w : World} (directory : Given) :
    Takes (b.Underway w (Finished w) (b.Resting w))
      (fun _ => b.Underway w (b.Fetching w) (fun _ => True)) (b.Orderly w)
      (Transfer.download directory b.bucket (b.backStem w)) := by
  unfold Transfer.download
  refine Takes.bind (J := fun _ => b.Underway w (b.Fetching w) (fun _ => True)) ?_
    (fun _ => Keeps.takes (Keeps.get_bind (fun v hv => ?_)) (fun _ => orderly_of_fetching))
  · rintro v ⟨trace, logged, finished, _⟩
    exact ⟨_, logged.emit (e := .listed b.bucket (b.backStem w)) ⟨rfl, rfl, finished⟩ rfl,
      ⟨stable_finished w _ _ finished, by simp⟩, trivial⟩
  · cases listed : v.storage.list b.bucket (b.backStem w) with
    | error f => exact hv
    | ok objects =>
      have below : ∀ o ∈ objects, Storage.startsWith (b.backStem w) o.1 = true := fun o ho =>
        (Storage.mem_listing.mp (Storage.listing_of_list listed ▸ ho)).2
      have fetched : Keeps (b.Underway w (b.Fetching w) (fun _ => True)) (do
          Run.note (.downloadStarted b.bucket (b.backStem w))
          objects.forM (Transfer.downloadObject directory b.bucket (b.backStem w))
          Run.note (.downloaded directory.text)) :=
        Keeps.bind (keeps_note (stable_fetching b w) _) (fun _ => Keeps.bind
          (Keeps.forM objects (fun o ho => keeps_downloadObject directory (below o ho)))
          (fun _ => keeps_note (stable_fetching b w) _))
      exact fetched v hv

/-- A run that succeeds is in order and has listed the results. One that stops is in order too, and has
listed them or has the disk as preprocessing has left it. -/
theorem start_stage (b : Batch) {w : World} (sound : (final (b.preprocess w)).disk.Sound) :
    Takes (fun v => v = w) (fun _ => b.Underway w (b.Fetching w) (fun _ => True)) (b.Orderly w)
      b.start := by
  -- up to the listing a run that stops leaves the disk at rest, from then on it has listed
  have note : ∀ {F : List Event → Prop}, Stable F → ∀ n, Takes (b.Underway w F (b.Resting w))
      (fun _ => b.Underway w F (b.Resting w)) (b.Orderly w) (Run.note n) :=
    fun stable n => (keeps_note stable n).takes (fun _ => orderly_of_resting)
  have fetching := stable_fetching b w
  have reverts : Keeps (b.Underway w (b.Fetching w) (fun _ => True)) b.postprocess :=
    b.keeps_postprocess (keeps_note fetching) (fun m output => Processing.keeps_processDirectory
      (keeps_note fetching) (keeps_anyFiles (fun _ => trivial)) m .revert _ output)
  have cleans : Keeps (b.Underway w (b.Fetching w) (fun _ => True)) b.cleanUp :=
    b.keeps_cleanUp (keeps_note fetching) (keeps_anyFiles (fun _ => trivial) _)
  have ends : ∀ job, Keeps (b.Underway w (b.Fetching w) (fun _ => True)) (do
      b.postprocess
      Run.note (.postprocessed b.output.text)
      b.cleanUp
      Run.note .finished
      let link ← b.link job
      Run.note (.details link)
      Run.note .thanks) := fun job =>
    Keeps.bind reverts (fun _ => Keeps.bind (keeps_note fetching _) (fun _ =>
      Keeps.bind cleans (fun _ => Keeps.bind (keeps_note fetching _) (fun _ =>
        Keeps.bind (keeps_link b _) (fun _ => Keeps.bind (keeps_note fetching _) (fun _ =>
          keeps_note fetching _))))))
  refine (preprocess_stage b w).bind (fun _ => newStoragePath_underway.bind_value ?_)
  rintro _ rfl
  refine (note (fun _ _ h => h) _).bind (fun _ => (upload_stage sound).bind (fun _ => ?_))
  refine (note (stable_sent b w) _).bind (fun _ => (create_stage (fun _ => orderly_of_resting)
    (fun named => b.address_eq w named proper_input)
    (fun named => b.address_eq w named proper_output)).bind_value (fun job made => ?_))
  refine (wait_stage made (fun _ => orderly_of_resting) _).bind (fun _ => ?_)
  refine (note (stable_finished w) _).bind (fun _ => (download_stage _).bind (fun _ => ?_))
  exact (ends job).takes (fun _ => orderly_of_fetching)

/-- Whatever the world is like: what a run does it does in order, and if it has not come to list the
results, the disk is as preprocessing has left it. Nothing has been removed then, without macros nothing
has changed, and with macros nothing apart from the scratch directory, if no links lead elsewhere. -/
theorem start_in_order (b : Batch) {w : World} (genuine : w.disk.Genuine) :
    ∃ trace, (final (b.start w)).events = w.events ++ trace ∧
      (∀ before e after, trace = before ++ e :: after → b.Requires w before e) ∧
      (∀ v, b.start w = .ok () v → .listed b.bucket (b.backStem w) ∈ trace) ∧
      ((∀ bucket stem, .listed bucket stem ∉ trace) →
        (final (b.start w)).disk = (final (b.preprocess w)).disk ∧
        Kept w.disk (final (b.start w)).disk ∧
        (b.macros = none → (final (b.start w)).disk = w.disk) ∧
        ∀ place, b.Straight w.disk place → ∀ top, Apart top place → ∀ r,
          (final (b.start w)).disk.tree.node? (top ++ r) = w.disk.tree.node? (top ++ r)) := by
  have tended := b.preprocess_tended genuine
  have run := start_stage b tended.genuine.sound w rfl
  cases result : b.start w with
  | ok u v =>
    rw [result] at run
    obtain ⟨trace, logged, ⟨_, listed⟩, _⟩ := run
    exact ⟨trace, logged.events, logged.ordered, fun _ _ => listed, fun none => absurd listed (none _ _)⟩
  | error stop v =>
    rw [result] at run
    obtain ⟨trace, logged, disk⟩ := run
    refine ⟨trace, logged.events, logged.ordered, (fun _ h => nomatch h), fun none => ?_⟩
    have rest : v.disk = (final (b.preprocess w)).disk :=
      disk.resolve_left (fun ⟨bucket, stem, listed⟩ => none bucket stem listed)
    refine ⟨rest, ?_, fun plain => ?_, fun place straight top apart r => ?_⟩
    · rw [final, rest]
      exact tended.kept
    · rw [final, rest, preprocess, plain]
      rfl
    · rw [final, rest]
      exact tended.node?_apart straight apart r

def errand (input : String) : Batch where
  settings := ⟨⟨"1", "bkt"⟩, ⟨.teradata, "us", none, none, true⟩⟩
  input := input
  output := .path "out"
  macros := some [("*.sql", [("x", "yy")])]
  mapping := none

def premises (more : List (Place × Node)) : World :=
  { World.ofDisk ⟨⟨[(["w"], .directory), (["w", "l"], .link "d"), (["w", "d"], .directory),
      (["w", "d", "in"], .directory), (["w", "d", "in", "a.sql"], .file [120]),
      (["w", "out"], .directory), (["w", "out", "a.sql"], .file [1])] ++ more⟩, ["w"]⟩ with
    storage := ⟨[], ["bkt"]⟩ }

theorem genuine_premises {more : List (Place × Node)} (sound : (premises more).disk.Sound)
    (noNul : ∀ e ∈ more, ∀ target, e.2 = .link target → '\x00' ∉ target.toList) :
    (premises more).disk.Genuine := by
  refine ⟨sound, fun p target there => ?_⟩
  rcases List.mem_append.mp (Tree.mem_entries_of_link there) with old | new
  · simp at old
    rw [old.2]
    decide
  · exact noNul _ new target rfl

theorem straight_errand :
    (errand "l/in").Straight (premises []).disk ["w", "d", ".tmp_processed"] := by
  refine ⟨"/w/l", ["w", "d"], [".tmp_processed", "input"], ⟨⟨by decide, by decide⟩,
    by decide, ⟨by decide, Or.inr (by decide), leads_of_find (by decide), ?_⟩,
    by decide, by simp⟩, rfl⟩
  intro ms target _ _ there
  simpa [premises, World.ofDisk] using Tree.mem_entries_of_link there

theorem start_in_order_errand :
    (errand "l/in").Straight (premises []).disk ["w", "d", ".tmp_processed"] ∧
      ∃ stop v, (errand "l/in").start (premises []) = .error stop v ∧
        v.disk.tree.node? ["w", "d", ".tmp_processed", "input", "a.sql"] = some (.file [121, 121]) ∧
        v.disk.tree.node? ["w", "out", "a.sql"] = some (.file [1]) := by
  refine ⟨straight_errand, ?_⟩
  obtain ⟨stop, v, stopped, left⟩ := error_of_run' (x := (errand "l/in").start) (s := premises [])
    (f := fun v => (v.events.any Event.isListing,
      v.disk.tree.node? ["w", "d", ".tmp_processed", "input", "a.sql"]))
    (b := (false, some (.file [121, 121]))) (by decide +kernel)
  have genuine : (premises []).disk.Genuine := genuine_premises
    ⟨Tree.sound_of_entries (by decide) (by decide +kernel), rfl⟩ (by simp)
  obtain ⟨trace, events, _, _, unlisted⟩ := start_in_order (errand "l/in") genuine
  rw [stopped] at events unlisted
  have silent : v.events.any Event.isListing = false := congrArg Prod.fst left
  have none : ∀ bucket stem, .listed bucket stem ∉ trace := by
    intro bucket stem there
    have found : v.events.any Event.isListing = true :=
      List.any_eq_true.mpr ⟨_, events ▸ List.mem_append_right _ there, rfl⟩
    rw [silent] at found
    cases found
  obtain ⟨_, _, _, apart⟩ := unlisted none
  exact ⟨stop, v, stopped, congrArg Prod.snd left,
    apart _ straight_errand ["w", "out"] (by decide) ["a.sql"]⟩

/-- A link in place of the directory for what goes out leads to another directory, and what is there is
changed though the run stops at the upload. -/
theorem start_spills :
    let more := [(["w", "in"], .directory), (["w", "in", "a.sql"], .file [120]),
      (["w", ".tmp_processed"], .directory), (["w", ".tmp_processed", "input"], .link "../out")]
    (premises more).disk.Genuine ∧ Apart ["w", "out"] ["w", ".tmp_processed"] ∧
      ∃ stop v, (errand "in").start (premises more) = .error stop v ∧
        v.events.any Event.isListing = false ∧
        v.disk.tree.node? ["w", "out", "a.sql"] = some (.file [121, 121]) := by
  intro more
  have genuine : (premises more).disk.Genuine :=
    genuine_premises ⟨Tree.sound_of_entries (by decide) (by decide +kernel), rfl⟩ (by simp [more])
  obtain ⟨stop, v, stopped, left⟩ := error_of_run' (x := (errand "in").start) (s := premises more)
    (f := fun v => (v.events.any Event.isListing, v.disk.tree.node? ["w", "out", "a.sql"]))
    (b := (false, some (.file [121, 121]))) (by decide +kernel)
  exact ⟨genuine, by decide, stop, v, stopped, congrArg Prod.fst left, congrArg Prod.snd left⟩

end Batch

end SqlMigration
