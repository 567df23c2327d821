import SqlMigration.Text.Utf8

/-!
# Service messages

A message is a list of named fields, without the fields that have their default
value. The text form writes one field per line and nests messages in braces.
-/

set_option autoImplicit false

namespace SqlMigration

inductive Item where
  | text (s : String)
  | symbol (name : String)
  | record (fields : List (String × Item))
  | list (items : List Item)
  deriving Repr

abbrev Message := List (String × Item)

namespace Message

/-- A text field is left out when the text is empty. -/
def textField (name s : String) : Message := if s = "" then [] else [(name, .text s)]

def octal (b : UInt8) : List Char :=
  let n := b.toNat
  let digit (k : Nat) : Char := Char.ofNat (48 + k % 8)
  ['\\', digit (n / 64), digit (n / 8), digit n]

def escapeByte (b : UInt8) : List Char :=
  let c := Char.ofNat b.toNat
  if c = '"' ∨ c = '\\' ∨ c = '\x27' then ['\\', c]
  else if c = '\n' then ['\\', 'n']
  else if c = '\r' then ['\\', 'r']
  else if c = '\t' then ['\\', 't']
  else if 0x20 ≤ b ∧ b < 0x7F then [c]
  else octal b

def quoted (s : String) : List Char :=
  '"' :: (Utf8.encode s.toList).flatMap escapeByte ++ ['"']

mutual

def charsOfItem (indent : Nat) (name : String) : Item → List Char
  | .text s => List.replicate indent ' ' ++ name.toList ++ ':' :: ' ' :: quoted s ++ ['\n']
  | .symbol s => List.replicate indent ' ' ++ name.toList ++ ':' :: ' ' :: s.toList ++ ['\n']
  | .record fields =>
    List.replicate indent ' ' ++ name.toList ++ [' ', '\x7b', '\n']
      ++ charsOfFields (indent + 2) fields ++ List.replicate indent ' ' ++ ['\x7d', '\n']
  | .list items => charsOfItems indent name items

def charsOfItems (indent : Nat) (name : String) : List Item → List Char
  | [] => []
  | i :: is => charsOfItem indent name i ++ charsOfItems indent name is

def charsOfFields (indent : Nat) : List (String × Item) → List Char
  | [] => []
  | (name, i) :: rest => charsOfItem indent name i ++ charsOfFields indent rest

end

def render (m : Message) : String := String.ofList (charsOfFields 0 m)

end Message

end SqlMigration
