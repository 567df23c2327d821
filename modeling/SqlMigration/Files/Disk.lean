import SqlMigration.Files.Fault
import SqlMigration.Files.Path
import SqlMigration.Files.Tree

/-!
# Looking up paths

A disk is a tree together with the place that relative paths start from. A
lookup follows a path part by part, through symbolic links, at most forty of
them. It ends at a node, or at a place where nothing is but something could be.
-/

set_option autoImplicit false

namespace SqlMigration

structure Disk where
  tree : Tree
  here : Place
  deriving Repr

namespace Files

inductive Found where
  | node (p : Place) (n : Node)
  | absent (p : Place)
  deriving DecidableEq, Repr

def nameLimit : Nat := 255

/-- Paths must be shorter than this, in bytes. -/
def pathLimit : Nat := 4096

def linkLimit : Nat := 40

def byteLength (s : String) : Nat := (Utf8.encode s.toList).length

/-- The parts to follow. A final slash asks for a directory, like a final dot. -/
def steps (path : String) : List String :=
  if Path.endsWithSlash path then Path.parts path ++ ["."] else Path.parts path

def startFrom (here : Place) (path : String) : Place := if Path.isAbsolute path then [] else here

/-- Follows the parts from a directory on; a link on the way is handed to `again`. -/
def descend (t : Tree) (followLast : Bool) (again : Place → List String → Except Reason Found) :
    Place → List String → Except Reason Found
  | place, [] => .ok (.node place .directory)
  | place, part :: rest =>
    if part = "." then descend t followLast again place rest
    else if part = ".." then descend t followLast again place.dropLast rest
    else if nameLimit < byteLength part then .error .nameTooLong
    else
      let next := place ++ [part]
      match t.node? next with
      | none => if rest.isEmpty then .ok (.absent next) else .error .missing
      | some .directory => descend t followLast again next rest
      | some (.file content) =>
        if rest.isEmpty then .ok (.node next (.file content)) else .error .notDirectory
      | some (.link target) =>
        if rest.isEmpty && !followLast then .ok (.node next (.link target))
        else again (startFrom place target) (steps target ++ rest)

/-- Follows the parts through at most `links` symbolic links. -/
def follow (t : Tree) (followLast : Bool) : Nat → Place → List String → Except Reason Found
  | 0 => descend t followLast (fun _ _ => .error .tooManyLinks)
  | links + 1 => descend t followLast (follow t followLast links)

end Files

namespace Disk

open Files

def find (d : Disk) (followLast : Bool) (path : String) : Except Reason Found :=
  if '\x00' ∈ path.toList then .error .nul
  else if path = "" then .error .missing
  else if pathLimit ≤ byteLength path then .error .nameTooLong
  else follow d.tree followLast linkLimit (startFrom d.here path) (steps path)

def node (d : Disk) (followLast : Bool) (path : String) : Except Reason Node :=
  match d.find followLast path with
  | .ok (.node _ n) => .ok n
  | .ok (.absent _) => .error .missing
  | .error r => .error r

def isFile (d : Disk) (path : String) : Bool :=
  match d.node true path with
  | .ok (.file _) => true
  | _ => false

def isDirectory (d : Disk) (path : String) : Bool :=
  match d.node true path with
  | .ok .directory => true
  | _ => false

def exists? (d : Disk) (path : String) : Bool :=
  match d.node true path with
  | .ok _ => true
  | .error _ => false

def isLink (d : Disk) (path : String) : Bool :=
  match d.node false path with
  | .ok (.link _) => true
  | _ => false

def pathOf (p : Place) : String := Path.ofParts "/" p

/-- The path from the root that a path stands for, by its text alone. -/
def absolute (d : Disk) (path : String) : String :=
  Path.normalize (if Path.isAbsolute path then path else Path.join (pathOf d.here) path)

/-- Whether an entry of the directory at a place counts as a directory there. A directory does, even if
the path to it is too long, and so does a link that leads to one along that path. -/
def countsAsDirectory (d : Disk) (path : String) (p : Place) (name : String) : Bool :=
  match d.tree.node? (p ++ [name]) with
  | some .directory => true
  | some (.link _) => d.isDirectory (Path.join path name)
  | _ => false

/-- The names of the directories and of all else in a directory, each in order. A path that leads to no
directory has none. -/
def list (d : Disk) (path : String) : List String × List String :=
  match d.find true path with
  | .ok (.node p .directory) => (d.tree.names p).partition (d.countsAsDirectory path p)
  | _ => ([], [])

end Disk

end SqlMigration
