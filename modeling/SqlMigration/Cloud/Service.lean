import SqlMigration.Cloud.Request
import SqlMigration.Cloud.Storage

/-!
# The migration service

What the service answers, and what it does to the storage when a job is created:
a converter copies each object below the source path to the target path, with
its content converted, and may add objects of its own. Any call may be refused,
and a creation that is refused may have been carried out all the same.
-/

set_option autoImplicit false

namespace SqlMigration

structure Refusal where
  code : Nat
  message : String
  deriving DecidableEq, Repr

/-- What the content of an object becomes may depend on its name below the source path. -/
structure Converter where
  convert : String → Bytes → Bytes
  extra : List (String × Bytes)

namespace Converter

def below? (bucket path : String) : Option String :=
  let stem := "gs://" ++ bucket ++ "/"
  if Storage.startsWith stem path then some (String.ofList (path.toList.drop stem.length)) else none

def rest (src name : String) : String := String.ofList (name.toList.drop src.length)

/-- Copies one object to below `dst`, with the content that it has by now. -/
def copy (c : Converter) (bucket src dst name : String) (s : Storage) : Storage :=
  s.store bucket (dst ++ rest src name) (c.convert (rest src name) ((s.object? bucket name).getD []))

def actOn (c : Converter) (source target bucket : String) (s : Storage) : Storage :=
  match below? bucket source, below? bucket target with
  | some src, some dst =>
    let names := (s.listing bucket (src ++ "/")).map (·.1)
    let copied := names.foldl (fun s name => c.copy bucket src dst name s) s
    c.extra.foldl (fun s e => s.store bucket (dst ++ e.1) e.2) copied
  | _, _ => s

def textLE (a b : String) : Bool := !decide (b < a)

def act (c : Converter) (source target : String) (s : Storage) : Storage :=
  ((Table.keys s.buckets).mergeSort textLE).foldl (fun s bucket => c.actOn source target bucket s) s

end Converter

/-- The answers that are still to be given to looks at a job, the last of them for ever. -/
structure Service where
  converter : Option Converter
  created : Except Refusal String
  states : List (Except Refusal JobState)
  listing : Except Refusal (List String)

namespace Service

def state (s : Service) : Except Refusal JobState := s.states.headD (.ok .completed)

def afterState (s : Service) : Service :=
  match s.states with
  | _ :: next :: rest => { s with states := next :: rest }
  | _ => s

end Service

end SqlMigration
