import SqlMigration.Job.Processing
import SqlMigration.Job.Transfer

/-!
# Batch jobs

A batch job uploads a directory of queries, has them converted, waits for the
service and downloads the results. With macros the queries are expanded into a
scratch directory first, and the results come back through it.
-/

set_option autoImplicit false

namespace SqlMigration

structure Batch where
  settings : Settings String
  input : String
  output : Given
  macros : Option Macros
  mapping : Option NameMapping

namespace Batch

/-- The scratch directory stands beside the input directory. -/
def scratch (b : Batch) : String := Path.join (Path.parent b.input) ".tmp_processed"

def bucket (b : Batch) : String := b.settings.project.bucket

def conversionName (b : Batch) : String := b.settings.plan.conversion.name

def parent (b : Batch) : String :=
  "projects/" ++ b.settings.project.number ++ "/locations/" ++ b.settings.plan.location

def storagePath (b : Batch) (now : Minute) (uuid : String) : String :=
  let d := now.date
  b.conversionName ++ "-" ++ toString d.year ++ "-" ++ Calendar.padded 2 d.month ++ "-"
    ++ Calendar.padded 2 d.day ++ "-" ++ uuid

def newStoragePath (b : Batch) : Run String := do
  let w ← get
  return b.storagePath w.now w.uuid

def displayName (b : Batch) (now : Minute) : String :=
  b.conversionName ++ "-cli-" ++ Calendar.padded 2 now.date.month ++ "-"
    ++ Calendar.padded 2 now.date.day ++ "-" ++ Calendar.padded 2 now.hour ++ ":"
    ++ Calendar.padded 2 now.minute

def link? (b : Batch) (workflow : String) : Option String :=
  if '/' ∈ workflow.toList then
    some ("https://console.cloud.google.com/bigquery/migrations/batch-translation"
      ++ ";viewTranslationDetails=" ++ b.settings.plan.location ++ "," ++ Path.name workflow
      ++ "?projectnumber=" ++ b.settings.project.number)
  else none

def link (b : Batch) (workflow : String) : Run String :=
  match b.link? workflow with
  | some s => pure s
  | none => Run.fail .unnamedJob

def request (b : Batch) (now : Minute) (source target : String) : JobRequest :=
  { parent := b.parent
    displayName := b.displayName now
    conversion := b.settings.plan.conversion
    source := source
    target := target
    database := b.settings.plan.database.getD ""
    searchPath := b.settings.plan.searchPath.getD []
    mapping := b.mapping.getD [] }

def announce (created : Except Refusal String) : Run String := do
  let job ← Run.ofExcept (created.mapError .service)
  Run.emit (.answered (Message.textField "name" job))
  return job

def create (b : Batch) (source target : String) : Run String := do
  let w ← get
  Run.emit (.requested (.create (b.request w.now source target)))
  match w.service.converter with
  | some c => Transfer.changeStorage (c.act source target)
  | none => pure ()
  announce w.service.created

/-- The answer to a look at a job, which uses it up. -/
def answer : Run (Except Refusal JobState) := do
  let w ← get
  set { w with service := w.service.afterState }
  return w.service.state

def getWorkflow (name : String) : Run Workflow := do
  Run.note (.workflowSought name)
  Run.emit (.requested (.get name))
  let state ← Run.ofExcept ((← answer).mapError .service)
  return ⟨name, state⟩

def listWorkflows (b : Batch) (count : Int) : Run Unit := do
  Run.note (.workflowsSought b.settings.project.number)
  Run.emit (.requested (.list b.parent))
  let names ← Run.ofExcept ((← get).service.listing.mapError .service)
  (names.take count.toNat).forM (fun name => Run.emit (.answered (Message.textField "name" name)))

def pause : Nat := 5

def sleep : Run Unit := do
  Run.emit (.slept pause)
  modify (fun w => { w with clock := w.clock + pause + w.lag })

/-- Whole seconds since a moment, without the fraction. -/
def elapsed (start now : Rat) : Int :=
  let d := now - start
  if 0 ≤ d then d.floor else -((-d).floor)

/-- Looks at a job until it is finished or `limit` seconds are over; `seconds` have passed. Fuel
bounds the number of looks. -/
def poll (b : Batch) (workflow : String) (limit : Int) (start : Rat) : Nat → Int → Run Unit
  | 0, seconds => giveUp seconds
  | fuel + 1, seconds =>
    if seconds < limit then do
      sleep
      let seconds := elapsed start (← get).clock
      let w ← getWorkflow workflow
      Run.note (.status w.state seconds)
      if w.state.isFinal then pure () else poll b workflow limit start fuel seconds
    else giveUp seconds
where
  giveUp (seconds : Int) : Run Unit := do
    let link ← b.link workflow
    Run.note (.stillRunning seconds link)
    Run.exit none

def patience : Int := 600

/-- The number of looks that suffices: after all states have been told the last one stays, and only
the clock can end the wait, if it goes forward. -/
def looks (limit : Int) (w : World) : Nat :=
  let pace := (pause : Rat) + w.lag
  w.service.states.length + 1 + (if 0 < pace then (limit / pace).ceil.toNat else 0)

def wait (b : Batch) (workflow : String) (limit : Int) : Run Unit := do
  let w ← get
  b.poll workflow limit w.clock (looks limit w) 0

def scratchOutput (b : Batch) : String := Path.join b.scratch "output"

def localInput (b : Batch) : String :=
  if b.macros.isSome then Path.join b.scratch "input" else b.input

def localOutput (b : Batch) : Given :=
  if b.macros.isSome then .path b.scratchOutput else b.output

def preprocess (b : Batch) : Run Unit :=
  match b.macros with
  | none => pure ()
  | some m => do
    Run.note .preprocessingStarted
    Processing.processDirectory m .expand b.input b.localInput

def postprocess (b : Batch) : Run Unit :=
  match b.macros with
  | none => pure ()
  | some m => do
    Run.note .postprocessingStarted
    Processing.processDirectory m .revert b.scratchOutput (← b.output.needed)

def cleanUp (b : Batch) : Run Unit := do
  if b.settings.plan.cleanUp && (← Run.disk).exists? b.scratch then
    Run.note (.cleaning b.scratch)
    Run.files (Files.removeTree b.scratch)
    Run.note .cleaned

def start (b : Batch) : Run Unit := do
  b.preprocess
  let path ← b.newStoragePath
  let base := Path.join ("gs://" ++ b.bucket) path
  Run.note .uploadStarted
  Transfer.upload b.localInput b.bucket (Path.join path "input")
  Run.note .jobStarted
  let job ← b.create (Path.join base "input") (Path.join base "output")
  b.wait job patience
  Run.note .outputsSought
  Transfer.download b.localOutput b.bucket (Path.join path "output")
  b.postprocess
  Run.note (.postprocessed b.output.text)
  b.cleanUp
  Run.note .finished
  let link ← b.link job
  Run.note (.details link)
  Run.note .thanks

end Batch

end SqlMigration
