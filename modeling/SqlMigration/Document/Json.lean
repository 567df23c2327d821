import SqlMigration.Document.Value
import SqlMigration.Number.Numeral

/-!
# JSON texts

Reading stops at the first fault and tells what was expected and where. Beyond
the standard the words `NaN`, `Infinity` and `-Infinity` are numbers. A repeated
key keeps its first place and has its last value.
-/

set_option autoImplicit false

namespace SqlMigration.Json

open Numeral (hexNumber? isDigit natOf)

inductive Cause where
  | byteOrderMark
  | value
  | name
  | colon
  | comma
  | extra
  | unterminated
  | control
  | escape
  | codeEscape
  deriving DecidableEq, Repr

inductive Fault where
  | expected (cause : Cause) (line column offset : Nat)
  | number (fault : Numeral.Fault)
  deriving DecidableEq, Repr

def Cause.message : Cause → String
  | .byteOrderMark => "Unexpected UTF-8 BOM (decode using utf-8-sig)"
  | .value => "Expecting value"
  | .name => "Expecting property name enclosed in double quotes"
  | .colon => "Expecting ':' delimiter"
  | .comma => "Expecting ',' delimiter"
  | .extra => "Extra data"
  | .unterminated => "Unterminated string starting at"
  | .control => "Invalid control character at"
  | .escape => "Invalid \\escape"
  | .codeEscape => "Invalid \\uXXXX escape"

def Fault.message : Fault → String
  | .expected cause line column offset =>
    cause.message ++ ": line " ++ toString line ++ " column " ++ toString column
      ++ " (char " ++ toString offset ++ ")"
  | .number fault => fault.message

inductive Halt where
  | expected (cause : Cause) (offset : Nat)
  | number (fault : Numeral.Fault)
  deriving DecidableEq, Repr

def Halt.fault (text : List Char) : Halt → Fault
  | .expected cause offset =>
    let before := text.take offset
    let column := (before.reverse.takeWhile (· ≠ '\n')).length + 1
    .expected cause (before.count '\n' + 1) column offset
  | .number f => .number f

structure Rest where
  offset : Nat
  chars : List Char

abbrev Read := Except Halt

def expect {α : Type} (cause : Cause) (offset : Nat) : Read α := .error (.expected cause offset)

def isSpace (c : Char) : Bool := c = ' ' || c = '\t' || c = '\n' || c = '\r'

def Rest.drop (r : Rest) (n : Nat) : Rest := ⟨r.offset + n, r.chars.drop n⟩

def Rest.skipSpace (r : Rest) : Rest := r.drop (r.chars.takeWhile isSpace).length

def plainEscape? (c : Char) : Option Char :=
  if c = '"' ∨ c = '\\' ∨ c = '/' then some c
  else if c = 'b' then some '\x08'
  else if c = 'f' then some '\x0c'
  else if c = 'n' then some '\n'
  else if c = 'r' then some '\r'
  else if c = 't' then some '\t'
  else none

def isHigh (n : Nat) : Bool := 0xD800 ≤ n && n ≤ 0xDBFF

def isLow (n : Nat) : Bool := 0xDC00 ≤ n && n ≤ 0xDFFF

/-- The code that an escape stands for and the number of characters after the backslash that
spell it. The backslash has the given offset, the text was opened at `start`. A code escape must not
be the last thing in the document. -/
def escapeAt (start offset : Nat) (s : List Char) : Read (Code × Nat) :=
  match s with
  | [] => expect .unterminated start
  | 'u' :: a :: b :: c :: d :: x :: rest =>
    match hexNumber? [a, b, c, d] with
    | none => expect .codeEscape (offset + 1)
    | some n =>
      match isHigh n, x :: rest with
      | true, '\\' :: 'u' :: e :: f :: g :: h :: _ :: _ =>
        match hexNumber? [e, f, g, h] with
        | none => expect .codeEscape (offset + 7)
        | some m =>
          if isLow m then .ok (Code.ofNat (0x10000 + (n - 0xD800) * 0x400 + (m - 0xDC00)), 11)
          else .ok (Code.ofNat n, 5)
      | _, _ => .ok (Code.ofNat n, 5)
  | 'u' :: _ => expect .codeEscape (offset + 1)
  | e :: _ =>
    match plainEscape? e with
    | none => expect .escape offset
    | some c => .ok (.char c, 1)

/-- The inside of a text that was opened at `start`, after passing over `skip` characters. -/
def stringFrom (start offset skip : Nat) : List Char → Read (List Code × Rest)
  | [] => expect .unterminated start
  | c :: cs =>
    match skip with
    | k + 1 => stringFrom start (offset + 1) k cs
    | 0 =>
      if c = '"' then .ok ([], ⟨offset + 1, cs⟩)
      else if c = '\\' then do
        let (e, n) ← escapeAt start offset cs
        let (s, r) ← stringFrom start (offset + 1) n cs
        return (e :: s, r)
      else if c.toNat < 32 then expect .control offset
      else do
        let (s, r) ← stringFrom start (offset + 1) 0 cs
        return (.char c :: s, r)

def exponent? : List Char → Option (Nat × Int)
  | e :: cs =>
    if e = 'e' ∨ e = 'E' then
      let (signLength, negative, digits) := match cs with
        | '-' :: ds => (1, true, ds.takeWhile isDigit)
        | '+' :: ds => (1, false, ds.takeWhile isDigit)
        | ds => (0, false, ds.takeWhile isDigit)
      if digits.isEmpty then none
      else
        let n : Int := natOf digits
        some (1 + signLength + digits.length, if negative then -n else n)
    else none
  | [] => none

def number (r : Rest) : Read (Scalar × Rest) :=
  let (negative, body) := match r.chars with
    | '-' :: cs => (true, cs)
    | cs => (false, cs)
  let whole := match body with
    | '0' :: _ => ['0']
    | cs => cs.takeWhile isDigit
  if whole.isEmpty then expect .value r.offset
  else
    let afterWhole := body.drop whole.length
    let fraction := match afterWhole with
      | '.' :: cs => cs.takeWhile isDigit
      | _ => []
    let afterFraction :=
      if fraction.isEmpty then afterWhole else afterWhole.drop (fraction.length + 1)
    let power := exponent? afterFraction
    let length := (if negative then 1 else 0) + whole.length
      + (if fraction.isEmpty then 0 else fraction.length + 1) + (power.map (·.1)).getD 0
    if fraction.isEmpty ∧ power.isNone then
      if digitLimit < whole.length then .error (.number (.tooManyDigits whole.length))
      else
        .ok (.int (if negative then -(natOf whole : Int) else natOf whole), r.drop length)
    else
      .ok (.float (Double.ofDecimal negative (natOf (whole ++ fraction))
        ((power.map (·.2)).getD 0 - fraction.length)), r.drop length)

def wordValues : List (String × Scalar) :=
  [("null", .null), ("true", .bool true), ("false", .bool false), ("NaN", .nan 0),
    ("Infinity", .float (.infinite false)), ("-Infinity", .float (.infinite true))]

def word? (r : Rest) : Option (Scalar × Rest) :=
  (wordValues.find? (fun w => w.1.toList.isPrefixOf r.chars)).map
    (fun w => (w.2, r.drop w.1.length))

mutual

/-- Reads the value at the start of the rest. Fuel is only spent together with characters. -/
def value : Nat → Rest → Read (Value × Rest)
  | 0, r => expect .value r.offset
  | fuel + 1, r =>
    match r.chars with
    | [] => expect .value r.offset
    | '"' :: cs => do
      let (s, r) ← stringFrom r.offset (r.offset + 1) 0 cs
      return (.scalar (.text (.ofList s)), r)
    | '[' :: _ =>
      let r := (r.drop 1).skipSpace
      match r.chars with
      | ']' :: _ => .ok (.list [], r.drop 1)
      | _ => do
        let (vs, r) ← items fuel r
        return (.list vs, r)
    | '\x7b' :: _ =>
      let r := (r.drop 1).skipSpace
      match r.chars with
      | '\x7d' :: _ => .ok (.map [], r.drop 1)
      | _ => do
        let (ps, r) ← pairs fuel r
        return (.map (entriesOf ps), r)
    | _ =>
      match word? r with
      | some (s, r) => .ok (.scalar s, r)
      | none => do
        let (s, r) ← number r
        return (.scalar s, r)

def items : Nat → Rest → Read (List Value × Rest)
  | 0, r => expect .value r.offset
  | fuel + 1, r => do
    let (v, r) ← value fuel r
    let r := r.skipSpace
    match r.chars with
    | ']' :: _ => return ([v], r.drop 1)
    | ',' :: _ =>
      let (vs, r) ← items fuel (r.drop 1).skipSpace
      return (v :: vs, r)
    | _ => expect .comma r.offset

def pairs : Nat → Rest → Read (List (Scalar × Value) × Rest)
  | 0, r => expect .value r.offset
  | fuel + 1, r =>
    match r.chars with
    | '"' :: cs => do
      let (s, r) ← stringFrom r.offset (r.offset + 1) 0 cs
      let r := r.skipSpace
      match r.chars with
      | ':' :: _ =>
        let (v, r) ← value fuel (r.drop 1).skipSpace
        let r := r.skipSpace
        match r.chars with
        | '\x7d' :: _ => return ([(.text (.ofList s), v)], r.drop 1)
        | ',' :: _ =>
          let (ps, r) ← pairs fuel (r.drop 1).skipSpace
          return ((.text (.ofList s), v) :: ps, r)
        | _ => expect .comma r.offset
      | _ => expect .colon r.offset
    | _ => expect .name r.offset

end

def read (text : List Char) : Except Fault Value :=
  let read : Read Value := do
    if text.head? = some '\uFEFF' then expect .byteOrderMark 0
    let (v, r) ← value (2 * text.length + 2) (Rest.skipSpace ⟨0, text⟩)
    let r := r.skipSpace
    if r.chars.isEmpty then return v else expect .extra r.offset
  read.mapError (Halt.fault text)

end SqlMigration.Json
