import SqlMigration.Document.Calendar
import SqlMigration.Number.Numeral

/-!
# Types of scalars

A plain scalar without a tag has the type of the first form that it fits: truth
value, float, integer, merge key, null, date or moment, default key. Everything
else is text. A line feed at the very end does not count.
-/

set_option autoImplicit false

namespace SqlMigration.Yaml

inductive Tag where
  | null
  | bool
  | int
  | float
  | binary
  | timestamp
  | str
  | seq
  | map
  | set
  | omap
  | pairs
  | merge
  | default
  | other
  deriving DecidableEq, Repr

namespace Tag

def space : String := "tag:yaml.org,2002:"

def named : List (String × Tag) :=
  [ ("null", .null), ("bool", .bool), ("int", .int), ("float", .float), ("binary", .binary),
    ("timestamp", .timestamp), ("str", .str), ("seq", .seq), ("map", .map), ("set", .set),
    ("omap", .omap), ("pairs", .pairs), ("merge", .merge), ("value", .default) ]

def ofText (s : String) : Tag :=
  match named.find? (fun p => space ++ p.1 = s) with
  | some p => p.2
  | none => .other

end Tag

open Numeral (dropSign hexValue? natOf)

def isDecimal (c : Char) : Bool := Numeral.isDigit c

def isDecimalOrBar (c : Char) : Bool := isDecimal c || c = '_'

def trueWords : List String := ["yes", "Yes", "YES", "true", "True", "TRUE", "on", "On", "ON"]

def falseWords : List String := ["no", "No", "NO", "false", "False", "FALSE", "off", "Off", "OFF"]

def isExponent : List Char → Bool
  | [] => true
  | e :: sign :: digits =>
    (e = 'e' || e = 'E') && (sign = '-' || sign = '+') && !digits.isEmpty && digits.all isDecimal
  | _ => false

/-- Minutes or seconds after a colon: one digit, or two of which the first is at most five. -/
def isSixty : List Char → Bool
  | [d] => isDecimal d
  | [t, d] => '0' ≤ t && t ≤ '5' && isDecimal d
  | _ => false

def isSexagesimal (s : List Char) : Bool :=
  match s.splitOn ':' with
  | first :: second :: rest =>
    (match first with
      | [] => false
      | d :: ds => isDecimal d && ds.all isDecimalOrBar)
      && (second :: rest).all isSixty
  | _ => false

def isFloat (s : List Char) : Bool :=
  let body := dropSign s
  let whole := body.takeWhile isDecimalOrBar
  let afterWhole := body.drop whole.length
  let positional := match whole, afterWhole with
    | d :: _, '.' :: rest => isDecimal d && isExponent (rest.dropWhile isDecimalOrBar)
    | _, _ => false
  let pointFirst := match s with
    | '.' :: d :: rest => isDecimal d && isExponent (rest.dropWhile isDecimalOrBar)
    | _ => false
  let sixty := body.takeWhile (· ≠ '.')
  let sexagesimal := match body.drop sixty.length with
    | '.' :: rest => rest.all isDecimalOrBar && isSexagesimal sixty
    | _ => false
  let infinite := String.ofList body ∈ [".inf", ".Inf", ".INF"]
  let notNumber := String.ofList s ∈ [".nan", ".NaN", ".NAN"]
  positional || pointFirst || sexagesimal || infinite || notNumber

def isHexOrBar (c : Char) : Bool := (hexValue? c).isSome || c = '_'

def isInt (s : List Char) : Bool :=
  match dropSign s with
  | [] => false
  | ['0'] => true
  | '0' :: 'b' :: rest => !rest.isEmpty && rest.all (fun c => c = '0' || c = '1' || c = '_')
  | '0' :: 'x' :: rest => !rest.isEmpty && rest.all isHexOrBar
  | '0' :: rest => rest.all (fun c => ('0' ≤ c && c ≤ '7') || c = '_')
  | d :: rest => isDecimal d && (rest.all isDecimalOrBar || isSexagesimal (d :: rest))

inductive Stamp where
  | date (d : Date)
  | moment (m : Moment)
  deriving Repr

def oneOrTwo? : List Char → Option (Nat × List Char)
  | a :: b :: rest =>
    if isDecimal a then
      if isDecimal b then some (natOf [a, b], rest) else some (natOf [a], b :: rest)
    else none
  | [a] => if isDecimal a then some (natOf [a], []) else none
  | [] => none

def two? : List Char → Option (Nat × List Char)
  | a :: b :: rest => if isDecimal a && isDecimal b then some (natOf [a, b], rest) else none
  | _ => none

def after? (c : Char) : List Char → Option (List Char)
  | d :: rest => if d = c then some rest else none
  | [] => none

/-- The offset at the end of a moment: none, `Z`, or a sign with hours and maybe minutes. -/
def offset? (s : List Char) : Option (Option Int) :=
  match s with
  | [] => some none
  | _ =>
    match s.dropWhile (fun c => c = ' ' || c = '\t') with
    | ['Z'] => some (some 0)
    | sign :: rest =>
      if sign = '-' ∨ sign = '+' then do
        let (hours, rest) ← oneOrTwo? rest
        let minutes ← match rest with
          | [] => some 0
          | _ => do
            let rest ← after? ':' rest
            let (minutes, rest) ← two? rest
            if rest.isEmpty then some minutes else none
        let total : Int := hours * 60 + minutes
        return some (if sign = '-' then -total else total)
      else none
    | [] => none

def micro (digits : List Char) : Nat :=
  let six := digits.take 6
  natOf (six ++ List.replicate (6 - six.length) '0')

def clock? (d : Date) (s : List Char) : Option Moment := do
  let (hour, s) ← oneOrTwo? s
  let s ← after? ':' s
  let (minute, s) ← two? s
  let s ← after? ':' s
  let (second, s) ← two? s
  let (fraction, s) := match s with
    | '.' :: rest => (rest.takeWhile isDecimal, rest.dropWhile isDecimal)
    | _ => ([], s)
  let offset ← offset? s
  return ⟨d, hour, minute, second, micro fraction, offset⟩

def stamp? (s : List Char) : Option Stamp :=
  match s with
  | a :: b :: c :: d :: rest =>
    if [a, b, c, d].all isDecimal then do
      let rest ← after? '-' rest
      let (month, rest) ← oneOrTwo? rest
      let rest ← after? '-' rest
      let (day, rest) ← oneOrTwo? rest
      let date : Date := ⟨natOf [a, b, c, d], month, day⟩
      match rest with
      | [] => return .date date
      | x :: time =>
        if x = 'T' ∨ x = 't' then return .moment (← clock? date time)
        else if x = ' ' ∨ x = '\t' then
          return .moment (← clock? date (time.dropWhile (fun c => c = ' ' || c = '\t')))
        else none
    else none
  | _ => none

/-- Without a time of the day, month and day need two digits each. -/
def isTimestamp (s : List Char) : Bool :=
  match stamp? s with
  | some (.date _) => s.length = 10
  | some (.moment _) => true
  | none => false

def dropFinalFeed (s : List Char) : List Char :=
  if s.getLast? = some '\n' then s.dropLast else s

/-- The type of a plain scalar. A line feed alone is text. -/
def Tag.implicit (text : Text) : Tag :=
  let s := dropFinalFeed (text.toList.map Code.face)
  let form := String.ofList s
  if form ∈ trueWords ∨ form ∈ falseWords then .bool
  else if isFloat s then .float
  else if isInt s then .int
  else if form = "<<" then .merge
  else if text.toList = [] ∨ form ∈ ["~", "null", "Null", "NULL"] then .null
  else if isTimestamp s then .timestamp
  else if form = "=" then .default
  else if form ∈ ["!", "&", "*"] then .other
  else .str

end SqlMigration.Yaml
