import SqlMigration.Conversion
import SqlMigration.Document.Layout
import SqlMigration.Schema.Field

/-!
# Settings of a job

A settings document names the project and the bucket to work with, and the
conversion to run: its kind, its location, and optionally the database and the
search path for unqualified names and whether scratch files are removed.
-/

set_option autoImplicit false

namespace SqlMigration

structure Settings.Project (τ : Type) where
  number : τ
  bucket : τ
  deriving DecidableEq, Repr

structure Settings.Plan (τ : Type) where
  conversion : Conversion
  location : τ
  database : Option τ
  searchPath : Option (List τ)
  cleanUp : Bool
  deriving DecidableEq, Repr

/-- A document gives settings in texts, a job is run with settings in strings. -/
structure Settings (τ : Type) where
  project : Settings.Project τ
  plan : Settings.Plan τ
  deriving DecidableEq, Repr

namespace Settings

open Schema

def checkProject : Check (Project Text) := fun v =>
  match v.entries? with
  | none => .error .notRecord
  | some entries =>
    let number := required text entries "project_number"
    let bucket := required text entries "gcs_bucket"
    match number, bucket, unknownFields ["project_number", "gcs_bucket"] entries with
    | .ok number, .ok bucket, [] => .ok ⟨number, bucket⟩
    | number, bucket, unknown =>
      .error (.fields (faultOf "project_number" number ++ faultOf "gcs_bucket" bucket ++ unknown))

def checkConversion : Check Conversion := fun v =>
  let no : Except Report Conversion := .error (.one (.noConversion v.display?))
  match v.scalar? with
  | some (.text s) =>
    match Conversion.ofName? s with
    | some c => .ok c
    | none => no
  | _ => no

def planFields : List String :=
  ["translation_type", "location", "default_database", "schema_search_path", "clean_up_tmp_files"]

def checkPlan : Check (Plan Text) := fun v =>
  match v.entries? with
  | none => .error .notRecord
  | some entries =>
    let conversion := required checkConversion entries "translation_type"
    let location := required text entries "location"
    let database := nullable text entries "default_database"
    let searchPath := nullable (listOf text) entries "schema_search_path"
    let cleanUp := withDefault true flag entries "clean_up_tmp_files"
    match conversion, location, database, searchPath, cleanUp, unknownFields planFields entries with
    | .ok conversion, .ok location, .ok database, .ok searchPath, .ok cleanUp, [] =>
      .ok ⟨conversion, location, database, searchPath, cleanUp⟩
    | conversion, location, database, searchPath, cleanUp, unknown =>
      .error (.fields (faultOf "translation_type" conversion ++ faultOf "location" location
        ++ faultOf "default_database" database ++ faultOf "schema_search_path" searchPath
        ++ faultOf "clean_up_tmp_files" cleanUp ++ unknown))

def check : Check (Settings Text) := fun v =>
  match v.entries? with
  | none => .error .notRecord
  | some entries =>
    let project := required checkProject entries "gcp_settings"
    let plan := required checkPlan entries "translation_config"
    match project, plan, unknownFields ["gcp_settings", "translation_config"] entries with
    | .ok project, .ok plan, [] => .ok ⟨project, plan⟩
    | project, plan, unknown =>
      .error (.fields
        (faultOf "gcp_settings" project ++ faultOf "translation_config" plan ++ unknown))

open Layout in
def term (s : Settings Text) : Term :=
  let orNone (t : Option Term) : Term := t.getD (.word "None")
  .sorted
    [ ("gcp_settings", .sorted
        [ ("project_number", .text s.project.number), ("gcs_bucket", .text s.project.bucket) ]),
      ("translation_config", .sorted
        [ ("translation_type", .word s.plan.conversion.name),
          ("location", .text s.plan.location),
          ("default_database", orNone (s.plan.database.map .text)),
          ("schema_search_path", orNone (s.plan.searchPath.map (fun p => .list (p.map .text)))),
          ("clean_up_tmp_files", .word (boolText s.plan.cleanUp)) ]) ]

def strings (s : Settings Text) : Except Text (Settings String) := do
  let number ← s.project.number.string
  let bucket ← s.project.bucket.string
  let location ← s.plan.location.string
  let database ← s.plan.database.mapM Text.string
  let searchPath ← s.plan.searchPath.mapM (fun p => p.mapM Text.string)
  return ⟨⟨number, bucket⟩, ⟨s.plan.conversion, location, database, searchPath, s.plan.cleanUp⟩⟩

end Settings

end SqlMigration
