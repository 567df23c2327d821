import SqlMigration.Job.World

/-!
# Paths given by the user

A path may have been left blank: it counts as given, and the run stops only where
the path is needed.
-/

set_option autoImplicit false

namespace SqlMigration

inductive Given where
  | blank
  | path (s : String)
  deriving DecidableEq, Repr

namespace Given

def text : Given → String
  | .blank => "[]"
  | .path s => s

def path? : Given → Option String
  | .blank => none
  | .path s => some s

def needed : Given → Run String
  | .blank => Run.fail .blankPath
  | .path s => pure s

end Given

end SqlMigration
