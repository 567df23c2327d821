import SqlMigration.Conversion
import SqlMigration.NameMapping

/-!
# Requests to the migration service

A job request names the project and location, the conversion, and the storage
paths to read from and to write to. The environment for unqualified names and
the name mapping are only sent when they say something.
-/

set_option autoImplicit false

namespace SqlMigration

inductive JobState where
  | unspecified
  | draft
  | running
  | paused
  | completed
  deriving DecidableEq, Repr

namespace JobState

def name : JobState → String
  | .unspecified => "STATE_UNSPECIFIED"
  | .draft => "DRAFT"
  | .running => "RUNNING"
  | .paused => "PAUSED"
  | .completed => "COMPLETED"

def number : JobState → Nat
  | .unspecified => 0
  | .draft => 1
  | .running => 2
  | .paused => 3
  | .completed => 4

def all : List JobState := [.unspecified, .draft, .running, .paused, .completed]

def ofName? (s : String) : Option JobState := all.find? (fun j => j.name = s)

def isFinal : JobState → Bool
  | .paused | .completed => true
  | _ => false

end JobState

structure Workflow where
  name : String
  state : JobState
  deriving DecidableEq, Repr

def Workflow.message (w : Workflow) : Message :=
  Message.textField "name" w.name
    ++ (if w.state = .unspecified then [] else [("state", .symbol w.state.name)])

structure JobRequest where
  parent : String
  displayName : String
  conversion : Conversion
  source : String
  target : String
  database : String
  searchPath : List String
  mapping : NameMapping
  deriving DecidableEq, Repr

namespace JobRequest

def environment (r : JobRequest) : Message :=
  if r.database = "" ∧ r.searchPath = [] then []
  else
    [("source_env", .record
      (Message.textField "default_database" r.database
        ++ (if r.searchPath = [] then []
          else [("schema_search_path", .list (r.searchPath.map .text))])))]

def details (r : JobRequest) : Message :=
  [ ("gcs_source_path", .text r.source), ("gcs_target_path", .text r.target),
    ("source_dialect", .record r.conversion.dialect),
    ("target_dialect", .record [("bigquery_dialect", .record [])]) ]
    ++ r.environment
    ++ (if r.mapping = [] then [] else [("name_mapping_list", .record r.mapping.message)])

def message (r : JobRequest) : Message :=
  let task : Message :=
    [("type_", .text r.conversion.name), ("translation_config_details", .record r.details)]
  [ ("parent", .text r.parent),
    ("migration_workflow", .record
      [ ("display_name", .text r.displayName),
        ("tasks", .record [("translation-task", .record task)]) ]) ]

end JobRequest

inductive Request where
  | create (r : JobRequest)
  | get (name : String)
  | list (parent : String)
  deriving DecidableEq, Repr

def Request.message : Request → Message
  | .create r => r.message
  | .get name => Message.textField "name" name
  | .list parent => Message.textField "parent" parent

end SqlMigration
