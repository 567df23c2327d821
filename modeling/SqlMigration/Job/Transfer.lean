import SqlMigration.Job.Given

/-!
# Transfers between disk and storage

A directory is uploaded file by file, each under its path below the directory. A
download brings every object whose name starts with a path to the disk, under
the part of its name after that path.
-/

set_option autoImplicit false

namespace SqlMigration.Transfer

def changeStorage (f : Storage → Storage) : Run Unit :=
  modify (fun w => { w with storage := f w.storage })

def openBucket (bucket : String) : Run Unit := do
  Run.note (.bucketSought bucket)
  Run.emit (.gotBucket bucket)
  match (← get).storage.getBucket bucket with
  | .ok () => pure ()
  | .error (.noBucket b) =>
    Run.note (.bucketMissing b)
    Run.emit (.madeBucket b)
    changeStorage (·.createBucket b)
  | .error f => Run.fail (.storage f)

def below (directory top : String) : String :=
  let rest := Path.dropChars directory top.length
  if Path.isAbsolute rest then Path.dropChars rest 1 else rest

def uploadFile (bucket target top directory name : String) : Run Unit := do
  let path := Path.join directory name
  Run.note (.uploading path)
  let object := Path.join (Path.join target (below directory top)) name
  let content ← Run.files (Files.read path)
  Run.emit (.uploaded bucket object)
  changeStorage (·.store bucket object content)

def upload (directory bucket target : String) : Run Unit := do
  if !(← Run.disk).isDirectory directory then Run.fail (.noInput directory)
  openBucket bucket
  let top := (← Run.disk).absolute directory
  Run.walkAll (fun here names => names.forM (uploadFile bucket target top here)) top
  Run.note (.uploaded bucket target)

/-- The directory part of an object's name after the path that was asked for and one more character.
A name that ends in a slash has none. -/
def directoryPart (stem object : String) : String :=
  let s := object.toList
  let keep := s.length - (Path.name object).length
  if Path.name object = "" then ""
  else String.ofList ((s.take keep).drop (stem.length + 1))

def downloadObject (directory : Given) (bucket stem : String) (object : String × Bytes) :
    Run Unit := do
  let dir := Path.join (← directory.needed) (directoryPart stem object.1)
  Run.files (Files.makePath dir)
  let path := Path.join dir (Path.name object.1)
  Run.note (.downloading path)
  Run.emit (.downloaded bucket object.1 path)
  Run.files (Files.write path object.2)

def download (directory : Given) (bucket stem : String) : Run Unit := do
  Run.emit (.listed bucket stem)
  match (← get).storage.list bucket stem with
  | .error f => Run.fail (.storage f)
  | .ok objects =>
    Run.note (.downloadStarted bucket stem)
    objects.forM (downloadObject directory bucket stem)
    Run.note (.downloaded directory.text)

end SqlMigration.Transfer
