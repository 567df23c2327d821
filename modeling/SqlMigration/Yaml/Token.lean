import SqlMigration.Text.Codes

/-!
# Tokens of a YAML text

Indentation has become tokens that open and close blocks. The end of the text is
the end of the list of tokens.
-/

set_option autoImplicit false

namespace SqlMigration.Yaml

inductive Directive where
  | version (major : Nat)
  | handle (name target : String)
  | other
  deriving DecidableEq, Repr

inductive Token where
  | directive (d : Directive)
  | documentStart
  | documentEnd
  | blockSequence
  | blockMapping
  | blockEnd
  | flowSequence
  | flowSequenceEnd
  | flowMapping
  | flowMappingEnd
  | blockEntry
  | flowEntry
  | key
  | value
  | alias (name : String)
  | anchor (name : String)
  | tag (handle : Option String) (suffix : String)
  | scalar (plain : Bool) (text : Text)
  deriving DecidableEq, Repr

end SqlMigration.Yaml
