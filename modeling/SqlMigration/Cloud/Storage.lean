import SqlMigration.Table
import SqlMigration.Text.Utf8

/-!
# Object storage

A bucket holds objects under names that are plain texts. Some buckets may be
there and yet be closed to the caller.
-/

set_option autoImplicit false

namespace SqlMigration

structure Storage where
  buckets : Table String (Table String Bytes)
  forbidden : List String
  deriving Repr

namespace Storage

inductive Fault where
  | forbidden (bucket : String)
  | noBucket (bucket : String)
  deriving DecidableEq, Repr

def Fault.message : Fault → String
  | .forbidden bucket => "403 no access to " ++ bucket
  | .noBucket bucket => "404 no bucket " ++ bucket

def objects (s : Storage) (bucket : String) : Table String Bytes :=
  (Table.get? s.buckets bucket).getD []

def object? (s : Storage) (bucket name : String) : Option Bytes :=
  Table.get? (s.objects bucket) name

def getBucket (s : Storage) (bucket : String) : Except Fault Unit :=
  if bucket ∈ s.forbidden then .error (.forbidden bucket)
  else if (Table.get? s.buckets bucket).isNone then .error (.noBucket bucket)
  else .ok ()

def createBucket (s : Storage) (bucket : String) : Storage :=
  { s with buckets := Table.put s.buckets bucket [] }

def store (s : Storage) (bucket name : String) (content : Bytes) : Storage :=
  { s with buckets := Table.put s.buckets bucket (Table.put (s.objects bucket) name content) }

def startsWith (stem name : String) : Bool := stem.toList.isPrefixOf name.toList

def nameLE (a b : String × Bytes) : Bool := !decide (b.1 < a.1)

def listing (s : Storage) (bucket stem : String) : List (String × Bytes) :=
  ((s.objects bucket).filter (fun o => startsWith stem o.1)).mergeSort nameLE

def list (s : Storage) (bucket stem : String) : Except Fault (List (String × Bytes)) :=
  if (Table.get? s.buckets bucket).isNone then .error (.noBucket bucket)
  else .ok (s.listing bucket stem)

end Storage

end SqlMigration
