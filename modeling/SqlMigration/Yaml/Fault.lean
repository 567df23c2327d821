import SqlMigration.Document.Calendar
import SqlMigration.Number.Numeral

/-!
# Faults of a YAML document

A document cannot be decoded, or it is malformed, or it is well formed and one of
its scalars does not spell a value of its type.
-/

set_option autoImplicit false

namespace SqlMigration.Yaml

inductive ScalarFault where
  | calendar (fault : Calendar.Fault)
  | numeral (fault : Numeral.Fault)
  | hugePower
  | notFlag (text : Text)
  | notTimestamp
  | mappedTimestamp
  | emptyNumber
  | codePoint
  | hugeCodePoint
  deriving DecidableEq, Repr

def ScalarFault.message : ScalarFault → String
  | .calendar fault => fault.message
  | .numeral fault => fault.message
  | .hugePower => "int too large to convert to float"
  | .notFlag text => Quoted.text text
  | .notTimestamp => "'NoneType' object has no attribute 'groupdict'"
  | .mappedTimestamp => "expected string or bytes-like object, got 'list'"
  | .emptyNumber => "string index out of range"
  | .codePoint => "chr() arg not in range(0x110000)"
  | .hugeCodePoint => "Python int too large to convert to C int"

inductive Fault where
  | encoding (fault : Utf8.Fault)
  | malformed
  | scalar (fault : ScalarFault)
  deriving DecidableEq, Repr

end SqlMigration.Yaml
