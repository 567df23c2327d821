import SqlMigration.Cloud.Service
import SqlMigration.Cloud.Storage
import SqlMigration.Document.Json
import SqlMigration.Files.Fault
import SqlMigration.Schema.Report
import SqlMigration.Yaml.Fault

/-!
# Reasons for a run to stop

A run stops with a failure, or it leaves with an exit code and what it has
printed by then.
-/

set_option autoImplicit false

namespace SqlMigration

inductive PathComplaint where
  | notFile (path : String)
  | notDirectory (path : String)
  | exists (path : String)
  deriving DecidableEq, Repr

def PathComplaint.message : PathComplaint → String
  | .notFile path => path ++ " is not a regular file that exists."
  | .notDirectory path => path ++ " is not a directory that exists."
  | .exists path => path ++ " already exists."

inductive Failure where
  | file (fault : Files.Fault)
  | encoding (fault : Utf8.Fault)
  | unwritable (stray : Stray)
  | unsendable (text : Text)
  | yaml (fault : Yaml.Fault)
  | json (fault : Json.Fault)
  | invalid (report : Report)
  | longNumber
  | storage (fault : Storage.Fault)
  | service (refusal : Refusal)
  | path (complaint : PathComplaint)
  | blankPath
  | noInput (directory : String)
  | noAccount
  | unnamedJob
  deriving Repr

structure Exit where
  code : Option Nat
  output : String
  complaint : String
  deriving DecidableEq, Repr

inductive Stop where
  | failure (f : Failure)
  | exit (e : Exit)
  deriving Repr

/-- The failure for a report, which may be about a number that is too long to be told. -/
def Failure.ofReport (report : Report) : Failure :=
  if report.isTold then .invalid report else .longNumber

def Failure.report? : Failure → Option Report
  | .invalid report => some report
  | _ => none

def Failure.message : Failure → String
  | .file fault => fault.message
  | .encoding fault => fault.message
  | .unwritable stray => stray.message
  | .unsendable text =>
    String.ofList ((Quoted.codes text.toList).take 1024)
      ++ " isn't a valid unicode string and can't be encoded in UTF-8."
  | .yaml (.encoding fault) => fault.message
  | .yaml .malformed => "malformed document"
  | .yaml (.scalar fault) => fault.message
  | .json fault => fault.message
  | .invalid report => report.literal
  | .longNumber =>
    "Exceeds the limit (" ++ toString digitLimit ++ " digits) for integer string conversion; "
      ++ "use sys.set_int_max_str_digits() to increase the limit"
  | .storage fault => fault.message
  | .service refusal => toString refusal.code ++ " " ++ refusal.message
  | .path complaint => complaint.message
  | .blankPath => "expected str, bytes or os.PathLike object, not list"
  | .noInput directory => "Can't find input directory " ++ directory ++ "."
  | .noAccount =>
    "Can't find account info in gcloud config. Please log in through \"gcloud auth login\""
  | .unnamedJob => "list index out of range"

end SqlMigration
