import SqlMigration.Message
import SqlMigration.Schema.Field

/-!
# Object name mappings

A mapping document lists pairs of a source object and the target name it is to
have. A source has a kind; all parts of a name are optional, and an empty part
is the same as none.
-/

set_option autoImplicit false

namespace SqlMigration

inductive NameMapping.Kind where
  | database
  | schema
  | relation
  | column
  | relationAlias
  | columnAlias
  | function
  deriving DecidableEq, Repr

structure NameMapping.Name (τ : Type) where
  database : τ
  schema : τ
  relation : τ
  column : τ
  deriving DecidableEq, Repr

/-- A document gives names in texts, a message holds names in strings. -/
structure NameMapping.Entry (τ : Type) where
  kind : NameMapping.Kind
  source : NameMapping.Name τ
  target : NameMapping.Name τ
  deriving DecidableEq, Repr

abbrev NameMapping := List (NameMapping.Entry String)

namespace NameMapping

open Schema

def Kind.all : List Kind :=
  [.database, .schema, .relation, .column, .relationAlias, .columnAlias, .function]

def Kind.name : Kind → String
  | .database => "DATABASE"
  | .schema => "SCHEMA"
  | .relation => "RELATION"
  | .column => "ATTRIBUTE"
  | .relationAlias => "RELATION_ALIAS"
  | .columnAlias => "ATTRIBUTE_ALIAS"
  | .function => "FUNCTION"

def checkKind : Check Kind := fun v =>
  match text v with
  | .error r => .error r
  | .ok s =>
    match Kind.all.find? (fun k => (k.name : Text) = s) with
    | some k => .ok k
    | none => .error (.one (.notOneOf (Kind.all.map Kind.name)))

def part (entries : List (Scalar × Value)) (name : String) : Except Report Text :=
  withDefault "" text entries name

def partNames : List String := ["database", "schema", "relation", "attribute"]

def name (entries : List (Scalar × Value)) : Except (List (Scalar × Report)) (Name Text) :=
  let database := part entries "database"
  let schema := part entries "schema"
  let relation := part entries "relation"
  let column := part entries "attribute"
  match database, schema, relation, column with
  | .ok database, .ok schema, .ok relation, .ok column =>
    .ok ⟨database, schema, relation, column⟩
  | database, schema, relation, column =>
    .error (faultOf "database" database ++ faultOf "schema" schema ++ faultOf "relation" relation
      ++ faultOf "attribute" column)

def faults {α : Type} : Except (List (Scalar × Report)) α → List (Scalar × Report)
  | .ok _ => []
  | .error r => r

def checkSource : Check (Kind × Name Text) := fun v =>
  match v.entries? with
  | none => .error .notRecord
  | some entries =>
    let kind := required checkKind entries "type"
    match kind, name entries, unknownFields ("type" :: partNames) entries with
    | .ok kind, .ok name, [] => .ok (kind, name)
    | kind, name, unknown => .error (.fields (faultOf "type" kind ++ faults name ++ unknown))

def checkTarget : Check (Name Text) := fun v =>
  match v.entries? with
  | none => .error .notRecord
  | some entries =>
    match name entries, unknownFields partNames entries with
    | .ok name, [] => .ok name
    | name, unknown => .error (.fields (faults name ++ unknown))

def checkEntry : Check (Entry Text) := fun v =>
  match v.entries? with
  | none => .error .notRecord
  | some entries =>
    let source := required checkSource entries "source"
    let target := required checkTarget entries "target"
    match source, target, unknownFields ["source", "target"] entries with
    | .ok source, .ok target, [] => .ok ⟨source.1, source.2, target⟩
    | source, target, unknown =>
      .error (.fields (faultOf "source" source ++ faultOf "target" target ++ unknown))

def check : Check (List (Entry Text)) := fun v =>
  match v.entries? with
  | none => .error .notRecord
  | some entries =>
    let list := required (listOf checkEntry) entries "name_map"
    match list, unknownFields ["name_map"] entries with
    | .ok list, [] => .ok list
    | list, unknown => .error (.fields (faultOf "name_map" list ++ unknown))

def Name.strings (n : Name Text) : Except Text (Name String) := do
  return ⟨← n.database.string, ← n.schema.string, ← n.relation.string, ← n.column.string⟩

def Entry.strings (e : Entry Text) : Except Text (Entry String) := do
  return ⟨e.kind, ← e.source.strings, ← e.target.strings⟩

def unmade? : Except Report (Name Text) → Option Text
  | .ok n =>
    match n.strings with
    | .ok _ => none
    | .error t => some t
  | .error _ => none

/-- A name is made as soon as it is accepted, whatever is wrong elsewhere. -/
def entryUnmade? (v : Value) : Option Text :=
  match v.entries? with
  | none => none
  | some entries =>
    (unmade? ((required checkSource entries "source").map Prod.snd)).or
      (unmade? (required checkTarget entries "target"))

def textUnmade? (v : Value) : Option Text :=
  match v.entries? with
  | none => none
  | some entries =>
    match (Value.field? entries "name_map").bind Value.items? with
    | none => none
    | some items => items.findSome? entryUnmade?

def Name.message (n : Name String) : Message :=
  Message.textField "database" n.database ++ Message.textField "schema" n.schema
    ++ Message.textField "relation" n.relation ++ Message.textField "attribute" n.column

def Entry.message (e : Entry String) : Message :=
  [ ("source", .record (("type_", .symbol e.kind.name) :: e.source.message)),
    ("target", .record e.target.message) ]

def message (m : NameMapping) : Message :=
  if m.isEmpty then [] else [("name_map", .list (m.map (fun e => .record e.message)))]

end NameMapping

end SqlMigration
