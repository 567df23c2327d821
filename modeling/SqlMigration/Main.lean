import SqlMigration.CommandLine.Command

/-!
# The command as a program

Rehearses a job on the files below the working directory: the run sees them as
they are, meets a service that finishes at once, and shows what it notes, asks
and sends. Nothing on the machine is changed.
-/

set_option autoImplicit false

namespace SqlMigration.Rehearsal

/-- Adds what is at a path of the machine, and below it, to a tree. -/
partial def snapshot (path : String) (place : Place) (t : Tree) : IO Tree := do
  let here ← IO.FS.realPath path
  if ← here.isDir then
    let entries ← here.readDir
    entries.foldlM
      (fun t e => snapshot (path ++ "/" ++ e.fileName) (place ++ [e.fileName]) t)
      (if place.isEmpty then t else t.put place .directory)
  else if ← here.pathExists then
    let content ← IO.FS.readBinFile path
    return t.put place (.file content.toList)
  else return t

def here : Place := ["work"]

def world : IO World := do
  let tree ← snapshot "." here Tree.empty
  return {
    disk := ⟨tree, here⟩
    home := "/work"
    storage := ⟨[], []⟩
    service := ⟨none, .ok "projects/0/locations/none/workflows/rehearsal", [.ok .completed], .ok []⟩
    shell := ⟨"", "account = nobody"⟩
    now := ⟨⟨2000, 1, 1⟩, 0, 0⟩
    uuid := "00000000-0000-4000-8000-000000000000"
    clock := 0
    lag := 0
    events := [] }

def line : Event → String
  | .note n => (if n.isError then "ERROR: " else "INFO: ") ++ n.text
  | .answered m => "INFO: " ++ Message.render m
  | .asked c => "ask: " ++ c
  | .ran c => "run: " ++ c
  | .slept n => "sleep: " ++ toString n
  | .gotBucket b => "bucket: " ++ b
  | .madeBucket b => "new bucket: " ++ b
  | .listed b stem => "list: " ++ b ++ "/" ++ stem
  | .uploaded b o => "upload: " ++ b ++ "/" ++ o
  | .downloaded b o p => "download: " ++ b ++ "/" ++ o ++ " to " ++ p
  | .requested r => "request:\n" ++ Message.render r.message

end SqlMigration.Rehearsal

open SqlMigration in
def main (argv : List String) : IO UInt32 := do
  let report (w : World) : IO Unit := w.events.forM (fun e => IO.println (Rehearsal.line e))
  match CommandLine.command "dwh-migration-client" argv (← Rehearsal.world) with
  | .ok () w =>
    report w
    return 0
  | .error (.exit e) w =>
    report w
    IO.print e.output
    IO.eprint e.complaint
    return UInt32.ofNat (e.code.getD 0)
  | .error (.failure f) w =>
    report w
    IO.eprintln f.message
    return 1
