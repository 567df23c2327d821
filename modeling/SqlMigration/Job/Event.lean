import SqlMigration.Cloud.Request
import SqlMigration.Schema.Report

/-!
# Events of a run

Everything that a run does outside the file system leaves an event: a line in the
log, a command for the shell, a pause, an operation on the storage, a request to
the migration service.
-/

set_option autoImplicit false

namespace SqlMigration

inductive DocumentKind where
  | settings
  | macros
  | mapping
  deriving DecidableEq, Repr

def DocumentKind.name : DocumentKind → String
  | .settings => "config"
  | .macros => "macros"
  | .mapping => "object name mapping"

inductive Note where
  | reading (kind : DocumentKind) (path : String)
  | rejected (kind : DocumentKind) (path : String) (report : Report)
  | accepted (kind : DocumentKind) (path shown : String)
  | preprocessing (path : String)
  | postprocessing (path : String)
  | bucketSought (bucket : String)
  | bucketMissing (bucket : String)
  | uploading (path : String)
  | uploaded (bucket path : String)
  | downloadStarted (bucket path : String)
  | downloading (path : String)
  | downloaded (directory : String)
  | loginCheck
  | loginMissing
  | loginAdvice
  | credentialCheck
  | credentialMissing
  | credentialAdvice
  | projectCheck
  | cloudSettings (shown : String)
  | verifying
  | preprocessingStarted
  | uploadStarted
  | jobStarted
  | workflowSought (name : String)
  | status (state : JobState) (seconds : Int)
  | stillRunning (seconds : Int) (link : String)
  | workflowsSought (project : String)
  | outputsSought
  | postprocessingStarted
  | postprocessed (directory : String)
  | cleaning (directory : String)
  | cleaned
  | finished
  | details (link : String)
  | thanks
  deriving Repr

namespace Note

def text : Note → String
  | .reading kind path => "Parsing " ++ kind.name ++ " file: " ++ path ++ "."
  | .rejected kind path report =>
    "Invalid " ++ kind.name ++ " file: " ++ path ++ ": " ++ report.literal ++ "."
  | .accepted kind path shown =>
    "Finished parsing " ++ kind.name ++ " file: " ++ path ++ ":\n" ++ shown
      ++ (if kind = .mapping then "" else ".")
  | .preprocessing path => "Preprocessing " ++ path
  | .postprocessing path => "Postprocessing into " ++ path
  | .bucketSought bucket => "Get bucket " ++ bucket
  | .bucketMissing bucket =>
    "The bucket \"" ++ bucket ++ "\" does not exist, creating one..."
  | .uploading path => "Uploading file \"" ++ path ++ "\" to gcs..."
  | .uploaded bucket path =>
    "Finished uploading input files to gcs \"" ++ bucket ++ "/" ++ path ++ "\"."
  | .downloadStarted bucket path =>
    "Start downloading outputs from gcs \"" ++ bucket ++ "/" ++ path ++ "\""
  | .downloading path => "Downloading output file to \"" ++ path ++ "\"..."
  | .downloaded directory =>
    "Finished downloading. Output files are in \"" ++ directory ++ "\"."
  | .loginCheck => "Validate user login status in gcloud..."
  | .loginMissing =>
    "User hasn't logged in to gcloud yet.  Running command to login \"gcloud auth login\"..."
  | .loginAdvice => "Please open the following link in a browser and grant permission to login..."
  | .credentialCheck => "Validate user credential status in gcloud..."
  | .credentialMissing =>
    "Can't find application_default_credential file. Generating credential through the command "
      ++ "\"gcloud auth application-default login\""
  | .credentialAdvice =>
    "Please open the following link in a browser and grant permission to download credential file..."
  | .projectCheck => "Validate project config status in gcloud..."
  | .cloudSettings shown =>
    "Your cloud config used for this translation job is:\n" ++ shown
  | .verifying => "Verify cloud login and credential settings..."
  | .preprocessingStarted => "Start pre-processing input query files..."
  | .uploadStarted => "Uploading inputs to gcs ..."
  | .jobStarted => "Start translation job..."
  | .workflowSought name => "Get migration workflows for " ++ name
  | .status state seconds =>
    "Translation job status is " ++ toString state.number ++ ". Processing time: "
      ++ toString seconds ++ " seconds"
  | .stillRunning seconds link =>
    "The job is still running after " ++ toString seconds
      ++ " seconds. Please go to the UI page and download the outputs manually " ++ link
  | .workflowsSought project => "List migration workflows for project " ++ project
  | .outputsSought => "Downloading outputs..."
  | .postprocessingStarted => "Start post-processing by reverting the macros substitution..."
  | .postprocessed directory =>
    "Finished postprocessing. The outputs are in " ++ directory
  | .cleaning directory => "Cleaning up tmp files under \"" ++ directory ++ "\"..."
  | .cleaned => "Finished cleanup."
  | .finished => "The job finished successfully!"
  | .details link => "To view the job details, please go to the link: " ++ link
  | .thanks =>
    "Thank you for using BigQuery SQL Translation Service with the Python exemplary client!"

def isError : Note → Bool
  | .rejected _ _ _ => true
  | _ => false

def isOutcome : Note → Bool
  | .rejected _ _ _ | .accepted _ _ _ => true
  | _ => false

end Note

inductive Event where
  | note (n : Note)
  | answered (m : Message)
  | asked (command : String)
  | ran (command : String)
  | slept (seconds : Nat)
  | gotBucket (bucket : String)
  | madeBucket (bucket : String)
  | listed (bucket stem : String)
  | uploaded (bucket object : String)
  | downloaded (bucket object path : String)
  | requested (r : Request)
  deriving Repr

end SqlMigration
