import SqlMigration.CommandLine.Arguments
import SqlMigration.Job.Batch
import SqlMigration.Job.Credentials

/-!
# The command

Reads the command line and the documents that it names, checks the login and runs
the batch job.
-/

set_option autoImplicit false

namespace SqlMigration.CommandLine

/-- A document that is invalid ends the command with exit code one. -/
def loadOrExit {α : Type} (f : Format α) (given : Given) : Run α :=
  tryCatch (f.load given) (fun stop =>
    match stop with
    | .failure (.invalid _) => Run.exit (some 1)
    | _ => throw stop)

/-- A path that is blank or empty is the same as none. -/
def pathGiven (given : Option Given) : Option String := (given.bind Given.path?).filter (· ≠ "")

def loadGiven {α : Type} (f : Format α) (given : Option Given) : Run (Option α) :=
  match pathGiven given with
  | none => return none
  | some path => return some (← loadOrExit f (.path path))

def runJob (a : Arguments) : Run Unit := do
  let settings ← loadOrExit Format.settings a.config
  let mapping ← loadGiven Format.mapping a.mapping
  let macros ← loadGiven Format.macros a.macros
  Run.note .verifying
  let settings ← Run.ofExcept (settings.strings.mapError .unsendable)
  Credentials.checkAll settings.project.number
  let input ← a.input.needed
  Batch.start ⟨settings, input, a.output, macros, mapping⟩

def command (program : String) (argv : List String) : Run Unit := do
  let a ← arguments program argv
  runJob a

end SqlMigration.CommandLine
