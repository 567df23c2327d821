import SqlMigration.Job.Batch
import SqlMigration.Proofs.Job.Keeping

/-!
# What a job does not look at

A job depends neither on what the shell shows nor on what has been logged before
it. All it does with the log is to add to it, and it adds the same whatever was
there.
-/

set_option autoImplicit false

namespace SqlMigration

open Files Effect

/-- Two worlds that differ in what the shell shows and in the log: after two old logs, the same events
have been logged. -/
def Veiled (shell : Shell) (old old' : List Event) (w v : World) : Prop :=
  ∃ since, w.events = old ++ since ∧ v = { w with shell := shell, events := old' ++ since }

/-- A run that neither looks at the shell nor at the log. -/
def Run.Blind {α : Type} (x : Run α) : Prop :=
  ∀ shell old old', Parallel (Veiled shell old old') x x

namespace Run.Blind

variable {α β : Type} {x : Run α}

theorem pure (a : α) : (Pure.pure a : Run α).Blind := fun _ _ _ => Parallel.pure a

theorem throw (stop : Stop) : (throw stop : Run α).Blind := fun _ _ _ => Parallel.throw stop

theorem bind {f : α → Run β} (hx : x.Blind) (hf : ∀ a, (f a).Blind) : (x >>= f).Blind :=
  fun shell old old' => (hx shell old old').bind (fun a => hf a shell old old')

theorem ite {c : Prop} [Decidable c] {y : Run α} (hx : x.Blind) (hy : y.Blind) :
    (if c then x else y).Blind :=
  fun shell old old' => Parallel.ite (fun _ => hx shell old old') (fun _ => hy shell old old')

theorem forM {f : α → Run PUnit} (xs : List α) (h : ∀ a, (f a).Blind) : (xs.forM f).Blind :=
  fun shell old old' => Parallel.forM xs (fun a _ => h a shell old old')

theorem emit (e : Event) : (Run.emit e).Blind := by
  refine fun shell old old' => Parallel.modify ?_
  rintro w _ ⟨since, logged, rfl⟩
  exact ⟨since ++ [e], by rw [logged, List.append_assoc], by rw [List.append_assoc]⟩

theorem note (n : Note) : (Run.note n).Blind := emit _

theorem files (action : Action α) : (Run.files action).Blind := by
  rintro shell old old' w _ ⟨since, logged, rfl⟩
  unfold Run.files
  cases action w.disk with
  | ok a d => exact .ok a ⟨since, logged, rfl⟩
  | error f d => exact .error _ ⟨since, logged, rfl⟩

theorem get_bind {f : World → Run β}
    (same : ∀ w shell events, f { w with shell := shell, events := events } = f w)
    (h : ∀ w, (f w).Blind) : (get >>= f).Blind := by
  refine fun shell old old' => Parallel.get_bind ?_
  rintro w _ ⟨since, _, rfl⟩
  rw [same w shell (old' ++ since)]
  exact h w shell old old'

theorem disk_bind {f : Disk → Run β} (h : ∀ d, (f d).Blind) : (Run.disk >>= f).Blind :=
  get_bind (f := fun w => f w.disk) (fun _ _ _ => rfl) (fun w => h w.disk)

theorem modify {f : World → World} (logged : ∀ w, (f w).events = w.events)
    (same : ∀ w shell events, f { w with shell := shell, events := events } =
      { f w with shell := shell, events := events }) : (modify f : Run PUnit).Blind := by
  refine fun shell old old' => Parallel.modify ?_
  rintro w _ ⟨since, before, rfl⟩
  exact ⟨since, (logged w).trans before, same w shell _⟩

theorem ofExcept (r : Except Failure α) : (Run.ofExcept r).Blind :=
  fun _ _ _ => Run.parallel_ofExcept r

theorem walk {visit : String → List String → Run Unit} (h : ∀ s names, (visit s names).Blind)
    (fuel : Nat) (top : String) : (Run.walk visit fuel top).Blind := by
  induction fuel generalizing top with
  | zero => exact pure _
  | succ fuel ih =>
    refine disk_bind (fun d => bind (h top _) (fun _ => forM _ (fun n => disk_bind (fun d => ?_))))
    exact ite (pure _) (ih _)

theorem walkAll {visit : String → List String → Run Unit} (h : ∀ s names, (visit s names).Blind)
    (top : String) : (Run.walkAll visit top).Blind :=
  ite (files _) (walk h _ top)

theorem alike (h : x.Blind) (w : World) (shell : Shell) (events : List Event) :
    Alike (Veiled shell w.events events) (x w) (x { w with shell := shell, events := events }) :=
  h shell w.events events w _ ⟨[], (List.append_nil _).symm, by rw [List.append_nil]⟩

theorem extends_log (h : x.Blind) (w : World) : ∃ since, (final (x w)).events = w.events ++ since := by
  have run := h.alike w w.shell w.events
  generalize x w = r at run
  cases run with
  | ok _ related => exact ⟨_, related.choose_spec.1⟩
  | error _ related => exact ⟨_, related.choose_spec.1⟩

end Run.Blind

open Run.Blind

theorem blind_needed (g : Given) : g.needed.Blind := by
  cases g with
  | blank => exact throw _
  | path s => exact Run.Blind.pure s

namespace Processing

theorem blind_readText (path : String) : (readText path).Blind := by
  refine (files _).bind (fun content => ?_)
  cases Utf8.decode content with
  | error f => exact throw _
  | ok text => exact Run.Blind.pure _

theorem blind_writeText (path : String) (text : Text) : (writeText path text).Blind := by
  rw [writeText]
  cases text.encode with
  | ok content => exact files _
  | error stray => exact (files _).bind (fun _ => throw _)

theorem blind_processFile (m : Macros) (dir : Direction) (input output below n : String) :
    (processFile m dir input output below n).Blind := by
  refine disk_bind (fun _ => ite (Run.Blind.pure _) ((files _).bind (fun _ => disk_bind (fun _ =>
    ite ?_ (files _)))))
  cases dir <;> exact (note _).bind (fun _ => (blind_readText _).bind (fun _ => blind_writeText _ _))

theorem blind_processDirectory (m : Macros) (dir : Direction) (input output : String) :
    (processDirectory m dir input output).Blind :=
  disk_bind (fun _ => walkAll (fun _ _ => forM _ (fun n => blind_processFile m dir _ _ _ n)) _)

end Processing

namespace Transfer

theorem blind_changeStorage (f : Storage → Storage) : (changeStorage f).Blind :=
  modify (fun _ => rfl) (fun _ _ _ => rfl)

theorem blind_openBucket (bucket : String) : (openBucket bucket).Blind := by
  refine (note _).bind (fun _ => (emit _).bind (fun _ => get_bind (fun _ _ _ => rfl) (fun w => ?_)))
  cases w.storage.getBucket bucket with
  | ok _ => exact Run.Blind.pure _
  | error f =>
    cases f with
    | forbidden b => exact throw _
    | noBucket b =>
      exact (note _).bind (fun _ => (emit _).bind (fun _ => blind_changeStorage _))

theorem blind_uploadFile (bucket target top directory n : String) :
    (uploadFile bucket target top directory n).Blind :=
  (note _).bind (fun _ => (files _).bind (fun _ => (emit _).bind (fun _ => blind_changeStorage _)))

theorem blind_upload (directory bucket target : String) : (upload directory bucket target).Blind := by
  have rest : (do
      openBucket bucket
      let top := (← Run.disk).absolute directory
      Run.walkAll (fun here names => names.forM (uploadFile bucket target top here)) top
      Run.note (.uploaded bucket target) : Run Unit).Blind :=
    (blind_openBucket bucket).bind (fun _ => disk_bind (fun _ =>
      (walkAll (fun _ _ => forM _ (fun n => blind_uploadFile _ _ _ _ n)) _).bind (fun _ => note _)))
  exact disk_bind (fun _ => ite ((throw _).bind (fun _ => rest)) rest)

theorem blind_download (directory : Given) (bucket stem : String) :
    (download directory bucket stem).Blind := by
  refine (emit _).bind (fun _ => get_bind (fun _ _ _ => rfl) (fun w => ?_))
  cases w.storage.list bucket stem with
  | error f => exact throw _
  | ok objects =>
    refine (note _).bind (fun _ => (forM objects (fun o => ?_)).bind (fun _ => note _))
    exact (blind_needed directory).bind (fun _ => (files _).bind (fun _ => (note _).bind (fun _ =>
      (emit _).bind (fun _ => files _))))

end Transfer

namespace Batch

variable (b : Batch)

theorem blind_link (job : String) : (b.link job).Blind := by
  unfold link
  cases b.link? job with
  | none => exact throw _
  | some s => exact Run.Blind.pure s

theorem blind_create (source target : String) : (b.create source target).Blind := by
  refine get_bind (fun _ _ _ => rfl) (fun w => (emit _).bind (fun _ => ?_))
  have answered : (announce w.service.created).Blind :=
    (ofExcept _).bind (fun _ => (emit _).bind (fun _ => Run.Blind.pure _))
  cases w.service.converter with
  | none => exact answered
  | some c => exact (Transfer.blind_changeStorage _).bind (fun _ => answered)

theorem blind_getWorkflow (job : String) : (getWorkflow job).Blind := by
  have answered : answer.Blind := by
    rintro shell old old' w _ ⟨since, logged, rfl⟩
    exact .ok _ ⟨since, logged, rfl⟩
  exact (note _).bind (fun _ => (emit _).bind (fun _ => answered.bind (fun _ =>
    (ofExcept _).bind (fun _ => Run.Blind.pure _))))

theorem blind_poll (job : String) (limit : Int) (start : Rat) (fuel : Nat) (seconds : Int) :
    (b.poll job limit start fuel seconds).Blind := by
  have givesUp : ∀ seconds, (poll.giveUp b job seconds).Blind := fun seconds =>
    (b.blind_link job).bind (fun _ => (note _).bind (fun _ => throw _))
  induction fuel generalizing seconds with
  | zero => exact givesUp seconds
  | succ fuel ih =>
    have slept : sleep.Blind := (emit _).bind (fun _ => modify (fun _ => rfl) (fun _ _ _ => rfl))
    refine ite (slept.bind (fun _ => get_bind (fun _ _ _ => rfl) (fun w => ?_))) (givesUp seconds)
    exact (blind_getWorkflow job).bind (fun _ => (note _).bind (fun _ => ite (Run.Blind.pure _) (ih _)))

theorem blind_wait (job : String) (limit : Int) : (b.wait job limit).Blind :=
  get_bind (fun _ _ _ => rfl) (fun w => b.blind_poll job limit w.clock (looks limit w) 0)

theorem blind_preprocess : b.preprocess.Blind := by
  unfold preprocess
  cases b.macros with
  | none => exact Run.Blind.pure _
  | some m => exact (note _).bind (fun _ => Processing.blind_processDirectory m _ _ _)

theorem blind_postprocess : b.postprocess.Blind := by
  unfold postprocess
  cases b.macros with
  | none => exact Run.Blind.pure _
  | some m =>
    exact (note _).bind (fun _ => (blind_needed _).bind (fun _ => Processing.blind_processDirectory m _ _ _))

theorem blind_cleanUp : b.cleanUp.Blind :=
  disk_bind (fun _ => ite ((note _).bind (fun _ => (files _).bind (fun _ => note _))) (Run.Blind.pure _))

theorem blind_start : b.start.Blind := by
  have path : b.newStoragePath.Blind := get_bind (fun _ _ _ => rfl) (fun _ => Run.Blind.pure _)
  refine b.blind_preprocess.bind (fun _ => path.bind (fun path => (note _).bind (fun _ => ?_)))
  refine (Transfer.blind_upload _ _ _).bind (fun _ => (note _).bind (fun _ =>
    (b.blind_create _ _).bind (fun job => (b.blind_wait job _).bind (fun _ => (note _).bind (fun _ => ?_)))))
  refine (Transfer.blind_download _ _ _).bind (fun _ => b.blind_postprocess.bind (fun _ =>
    (note _).bind (fun _ => b.blind_cleanUp.bind (fun _ => (note _).bind (fun _ => ?_)))))
  exact (b.blind_link job).bind (fun _ => (note _).bind (fun _ => note _))

end Batch

end SqlMigration
