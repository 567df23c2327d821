import SqlMigration.Job.Given
import SqlMigration.Macro.Macros
import SqlMigration.Settings
import SqlMigration.Text.Newline
import SqlMigration.Yaml.Document

/-!
# Loading documents

Settings and macros are YAML documents, name mappings are JSON documents. A
document is decoded, read and checked, and the outcome is noted.
-/

set_option autoImplicit false

namespace SqlMigration

structure Format (α : Type) where
  kind : DocumentKind
  value : Bytes → Except Failure Value
  ofValue : Value → Except Failure α
  shown : α → String

namespace Format

def yamlValue (content : Bytes) : Except Failure Value := (Yaml.read content).mapError .yaml

def jsonValue (content : Bytes) : Except Failure Value :=
  match Utf8.decode content with
  | .error f => .error (.encoding f)
  | .ok text => (Json.read (Newline.unify text)).mapError .json

variable {α : Type}

def checked (check : Value → Except Report α) (v : Value) : Except Failure α :=
  (check v).mapError .ofReport

/-- A name that cannot be made stops the reading at once, before anything is reported. -/
def mappingOf (v : Value) : Except Failure NameMapping :=
  match NameMapping.textUnmade? v with
  | some t => .error (.unsendable t)
  | none => do
    let entries ← checked NameMapping.check v
    (entries.mapM NameMapping.Entry.strings).mapError .unsendable

def settings : Format (Settings Text) :=
  ⟨.settings, yamlValue, checked Settings.check, fun s => s.term.render⟩

def macros : Format Macros :=
  ⟨.macros, yamlValue, checked Macros.check, fun m => (Macros.term m).render⟩

def mapping : Format NameMapping :=
  ⟨.mapping, jsonValue, mappingOf, fun m => (NameMapping.message m).render⟩

def ofBytes (f : Format α) (content : Bytes) : Except Failure α :=
  f.value content >>= f.ofValue

def load (f : Format α) (given : Given) : Run α := do
  Run.note (.reading f.kind given.text)
  let path ← given.needed
  let content ← Run.files (Files.read path)
  let v ← Run.ofExcept (f.value content)
  match f.ofValue v with
  | .error failure =>
    match failure.report? with
    | some report => Run.note (.rejected f.kind path report)
    | none => pure ()
    Run.fail failure
  | .ok a =>
    Run.note (.accepted f.kind path (f.shown a))
    return a

end Format

end SqlMigration
