import SqlMigration.Job.World

/-!
# Login and credentials

Before a job the shell tool is asked whether the user is logged in, whether there
are default credentials, and which account it works with; what is missing is
asked for.
-/

set_option autoImplicit false

namespace SqlMigration.Credentials

def ask (command : String) (output : Shell → String) : Run String := do
  Run.emit (.asked command)
  return output (← get).shell

def runCommand (command : String) : Run Unit := Run.emit (.ran command)

def occursIn (part : List Char) : List Char → Bool
  | [] => part.isEmpty
  | c :: cs => part.isPrefixOf (c :: cs) || occursIn part cs

def holds (part s : String) : Bool := occursIn part.toList s.toList

def checkLogin : Run Unit := do
  Run.note .loginCheck
  let shown ← ask "gcloud auth list" Shell.authList
  if holds "No credentialed accounts" shown then
    Run.note .loginMissing
    Run.note .loginAdvice
    runCommand "gcloud auth login"

def credentialFile (home : String) : String :=
  home ++ "/.config/gcloud/application_default_credentials.json"

def checkCredentials : Run Unit := do
  Run.note .credentialCheck
  let w ← get
  if !w.disk.exists? (credentialFile w.home) then
    Run.note .credentialMissing
    Run.note .credentialAdvice
    runCommand "gcloud auth application-default login"

def checkProject (project : String) : Run Unit := do
  Run.note .projectCheck
  runCommand ("gcloud config set project " ++ project)
  let shown ← ask "gcloud config list" Shell.configList
  Run.note (.cloudSettings shown)
  if !holds "account =" shown then Run.fail .noAccount

def checkAll (project : String) : Run Unit := do
  checkLogin
  checkCredentials
  checkProject project

end SqlMigration.Credentials
