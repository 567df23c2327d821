import SqlMigration.Text.Quoted

/-!
# Faults of file operations

A refused operation names the path that it was asked about, as it was given.
-/

set_option autoImplicit false

namespace SqlMigration.Files

inductive Reason where
  | missing
  | busy
  | exists
  | notDirectory
  | isDirectory
  | invalid
  | nameTooLong
  | notEmpty
  | tooManyLinks
  | nul
  deriving DecidableEq, Repr

def Reason.text : Reason → String
  | .missing => "[Errno 2] No such file or directory"
  | .busy => "[Errno 16] Device or resource busy"
  | .exists => "[Errno 17] File exists"
  | .notDirectory => "[Errno 20] Not a directory"
  | .isDirectory => "[Errno 21] Is a directory"
  | .invalid => "[Errno 22] Invalid argument"
  | .nameTooLong => "[Errno 36] File name too long"
  | .notEmpty => "[Errno 39] Directory not empty"
  | .tooManyLinks => "[Errno 40] Too many levels of symbolic links"
  | .nul => "embedded null byte"

inductive Fault where
  | refused (reason : Reason) (path : String)
  | sameFile (source target : String)
  | noDirectory (path : String)
  | linkedTree
  deriving DecidableEq, Repr

def Fault.message : Fault → String
  | .refused .nul _ => Reason.nul.text
  | .refused reason path => reason.text ++ ": " ++ Quoted.text path
  | .sameFile source target =>
    Quoted.text source ++ " and " ++ Quoted.text target ++ " are the same file"
  | .noDirectory path => "Directory does not exist: " ++ path
  | .linkedTree => "Cannot call rmtree on a symbolic link"

end SqlMigration.Files
