import SqlMigration.Text.Codes
import SqlMigration.Text.Printable

/-!
# Quoted literals

A text is shown between apostrophes, or between double quotes when it holds an
apostrophe and no double quote. Whatever cannot be printed is shown by its
number. Bytes are shown the same way, after the letter b.
-/

set_option autoImplicit false

namespace SqlMigration.Quoted

def apostrophe : Char := '\x27'

def quoteFor (s : List Code) : Char :=
  if .char apostrophe ∈ s ∧ .char '"' ∉ s then '"' else apostrophe

def hex (width n : Nat) : List Char :=
  let digits := Nat.toDigits 16 n
  List.replicate (width - digits.length) '0' ++ digits

def shortEscape? (quote c : Char) : Option (List Char) :=
  if c = quote ∨ c = '\\' then some ['\\', c]
  else if c = '\n' then some ['\\', 'n']
  else if c = '\r' then some ['\\', 'r']
  else if c = '\t' then some ['\\', 't']
  else none

def numbered (n : Nat) : List Char :=
  if n < 0x100 then '\\' :: 'x' :: hex 2 n
  else if n < 0x10000 then '\\' :: 'u' :: hex 4 n
  else '\\' :: 'U' :: hex 8 n

def escapeCode (quote : Char) : Code → List Char
  | .char c =>
    match shortEscape? quote c with
    | some e => e
    | none => if isPrintable c then [c] else numbered c.toNat
  | .half n => numbered (0xD800 + n)

def escapeByte (quote : Char) (b : UInt8) : List Char :=
  let c := Char.ofNat b.toNat
  match shortEscape? quote c with
  | some e => e
  | none => if 0x20 ≤ b ∧ b < 0x7F then [c] else '\\' :: 'x' :: hex 2 b.toNat

def codes (s : List Code) : List Char :=
  let quote := quoteFor s
  quote :: s.flatMap (escapeCode quote) ++ [quote]

def text (s : Text) : String := String.ofList (codes s.toList)

def bytes (b : Bytes) : String :=
  let quote := quoteFor (b.map (fun x => .char (Char.ofNat x.toNat)))
  String.ofList ('b' :: quote :: b.flatMap (escapeByte quote) ++ [quote])

end SqlMigration.Quoted
