import SqlMigration.Job.Loading

/-!
# Processing directories

Before a job the macros in the input files are expanded into a scratch directory;
after it they are put back into the results. Hidden files and whatever is no
file are left out. Archives and data files are copied as they are.
-/

set_option autoImplicit false

namespace SqlMigration.Processing

inductive Direction where
  | expand
  | revert
  deriving DecidableEq, Repr

def isHidden (name : String) : Bool := name.toList.head? = some '.'

/-- Letters other than these twenty-six never spell one of the endings, so their case is no matter. -/
def lower (s : List Char) : List Char := s.map Char.toLower

def copiedEndings : List String := [".zip", ".json", ".csv"]

def isCopied (name : String) : Bool :=
  copiedEndings.any (fun e => e.toList.isSuffixOf (lower name.toList))

def isIgnored (d : Disk) (path name : String) : Bool := !d.isFile path || isHidden name

def isProcessable (d : Disk) (path name : String) : Bool := !isIgnored d path name && !isCopied name

def readText (path : String) : Run Text := do
  let content ← Run.files (Files.read path)
  match Utf8.decode content with
  | .error f => Run.fail (.encoding f)
  | .ok s => return .ofChars (Newline.unify s)

/-- A file is emptied before its text is encoded, and stays empty when that fails. -/
def writeText (path : String) (text : Text) : Run Unit :=
  match text.encode with
  | .ok content => Run.files (Files.write path content)
  | .error stray => do
    Run.files (Files.write path [])
    Run.fail (.unwritable stray)

/-- The part of a path below a directory, by its text alone. -/
def relative (path directory : String) : String := Path.dropChars path (directory.length + 1)

def expandFile (m : Macros) (input output directory : String) : Run Unit := do
  Run.note (.preprocessing input)
  let text ← readText input
  writeText output (m.expand (relative input directory) text)

def revertFile (m : Macros) (input output directory : String) : Run Unit := do
  Run.note (.postprocessing output)
  let text ← readText input
  writeText output (m.unexpand (relative output directory) text)

/-- Processes one file; `below` is its directory, relative to the directory that is processed. -/
def processFile (m : Macros) (dir : Direction) (input output below name : String) : Run Unit := do
  let source := Path.join (Path.join input below) name
  let target := Path.join (Path.join output below) name
  if isIgnored (← Run.disk) source name then pure ()
  else
    Run.files (Files.makePath (Path.parent target))
    if isProcessable (← Run.disk) source name then
      match dir with
      | .expand => expandFile m source target input
      | .revert => revertFile m source target output
    else Run.files (Files.copy source target)

def processTree (m : Macros) (dir : Direction) (input output : String) : Run Unit :=
  Run.walkAll (fun top names =>
    names.forM (processFile m dir input output (relative top input))) input

def processDirectory (m : Macros) (dir : Direction) (input output : String) : Run Unit := do
  let d ← Run.disk
  processTree m dir (d.absolute input) (d.absolute output)

end SqlMigration.Processing
