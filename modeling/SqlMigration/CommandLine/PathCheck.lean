import SqlMigration.Job.World

/-!
# Checked paths

Paths given by the user are tidied and checked before anything else is done with
them. An output path may be claimed by force, which removes what is there.
-/

set_option autoImplicit false

namespace SqlMigration.PathCheck

/-- What a path leads to, if to anything. Only a name that is too long is an error of its own. -/
def kind (path : String) : Run (Option Node) := do
  match (← Run.disk).node true path with
  | .ok n => return some n
  | .error .nameTooLong => Run.fail (.file (.refused .nameTooLong path))
  | .error _ => return none

def complain {α : Type} (c : PathComplaint) : Run α := Run.fail (.path c)

def file (given : String) : Run String := do
  let path := Path.tidy given
  match ← kind path with
  | some (.file _) => return path
  | _ => complain (.notFile path)

def directory (given : String) : Run String := do
  let path := Path.tidy given
  match ← kind path with
  | some .directory => return path
  | _ => complain (.notDirectory path)

def clear (path : String) : Run Unit := do
  if (← Run.disk).isDirectory path then Run.files (Files.removeTree path)
  if (← Run.disk).isFile path then Run.files (Files.unlink path)

def free (force : Bool) (given : String) : Run String := do
  let path := Path.tidy given
  match ← kind path with
  | none => return path
  | some _ =>
    if force then
      clear path
      return path
    else complain (.exists path)

end SqlMigration.PathCheck
