import SqlMigration.Cloud.Service
import SqlMigration.Files.Action
import SqlMigration.Job.Event
import SqlMigration.Job.Failure

/-!
# The world of a run

Everything outside the program that it can see or change, and the events so far.
A run may stop; the world is then as the run has left it.
-/

set_option autoImplicit false

namespace SqlMigration

structure Minute where
  date : Date
  hour : Nat
  minute : Nat
  deriving DecidableEq, Repr

structure Shell where
  authList : String
  configList : String
  deriving DecidableEq, Repr

/-- Every pause takes `lag` seconds longer than it should. -/
structure World where
  disk : Disk
  home : String
  storage : Storage
  service : Service
  shell : Shell
  now : Minute
  uuid : String
  clock : Rat
  lag : Rat
  events : List Event

abbrev Run := EStateM Stop World

namespace Run

def fail {α : Type} (f : Failure) : Run α := throw (.failure f)

def exit {α : Type} (code : Option Nat) : Run α := throw (.exit ⟨code, "", ""⟩)

def ofExcept {α : Type} : Except Failure α → Run α
  | .ok a => pure a
  | .error f => fail f

def emit (e : Event) : Run Unit := modify (fun w => { w with events := w.events ++ [e] })

def note (n : Note) : Run Unit := emit (.note n)

def files {α : Type} (action : Files.Action α) : Run α := fun w =>
  match action w.disk with
  | .ok a d => .ok a { w with disk := d }
  | .error f d => .error (.failure (.file f)) { w with disk := d }

def disk : Run Disk := return (← get).disk

/-- Visits the directories from `top` down, each with the names of what it holds apart from
directories. A directory is listed, in the order of names, when it is reached, and a link to one is not
entered. -/
def walk (visit : String → List String → Run Unit) : Nat → String → Run Unit
  | 0, _ => pure ()
  | fuel + 1, top => do
    let (directories, others) := (← disk).list top
    visit top others
    directories.forM (fun name => do
      let path := Path.join top name
      if (← disk).isLink path then pure () else walk visit fuel path)

/-- Paths have a limited length, which bounds how deep a walk can go. A path with a null character is
refused, while one that leads to no directory is passed over. -/
def walkAll (visit : String → List String → Run Unit) (top : String) : Run Unit :=
  if '\x00' ∈ top.toList then files (Files.refuse .nul top) else walk visit Files.pathLimit top

end Run

end SqlMigration
