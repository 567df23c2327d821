import SqlMigration.Document.Literal

/-!
# Reports of invalid documents

A report says what is wrong with a document, below the field, the position or
the key where it is wrong. Problems with the pairs of a free mapping are
collected by key, apart from problems with named fields.
-/

set_option autoImplicit false

namespace SqlMigration

inductive Complaint where
  | missing
  | null
  | notText
  | notUtf8
  | notList
  | notFlag
  | notMapping
  | notRecord
  | unknownField
  | notOneOf (choices : List String)
  | noConversion (shown : Option Text)
  deriving DecidableEq, Repr

def Complaint.message : Complaint → Text
  | .missing => "Missing data for required field."
  | .null => "Field may not be null."
  | .notText => "Not a valid string."
  | .notUtf8 => "Not a valid utf-8 string."
  | .notList => "Not a valid list."
  | .notFlag => "Not a valid boolean."
  | .notMapping => "Not a valid mapping type."
  | .notRecord => "Invalid input type."
  | .unknownField => "Unknown field."
  | .notOneOf choices => "Must be one of: " ++ ", ".intercalate choices ++ "."
  | .noConversion shown => shown.getD "..." ++ " is not a valid translation type."

/-- A complaint cannot be told when the value that it is about cannot be shown. -/
def Complaint.isTold : Complaint → Bool
  | .noConversion shown => shown.isSome
  | _ => true

inductive Report where
  | one (c : Complaint)
  | fields (entries : List (Scalar × Report))
  | pairs (entries : List (Scalar × Report))
  deriving Repr

namespace Report

def notRecord : Report := .fields [(.text "_schema", .one .notRecord)]

mutual

def literal : Report → String
  | .one c => "[" ++ Quoted.text c.message ++ "]"
  | .fields entries => "\x7b" ++ ", ".intercalate (literals entries) ++ "\x7d"
  | .pairs entries =>
    "defaultdict(<class 'dict'>, \x7b" ++ ", ".intercalate (literals entries) ++ "\x7d)"

def literals : List (Scalar × Report) → List String
  | [] => []
  | (k, r) :: rest => (k.literal ++ ": " ++ literal r) :: literals rest

end

mutual

def isTold : Report → Bool
  | .one c => c.isTold
  | .fields entries => areTold entries
  | .pairs entries => areTold entries

def areTold : List (Scalar × Report) → Bool
  | [] => true
  | (_, r) :: rest => isTold r && areTold rest

end

end Report

end SqlMigration
