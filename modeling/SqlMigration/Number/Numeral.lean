import SqlMigration.Number.Double
import SqlMigration.Text.Blank
import SqlMigration.Text.Digit
import SqlMigration.Text.Quoted

/-!
# Numerals

Integers in several bases and decimal fractions. Blanks around a numeral and a
sign in front of it are allowed, and the decimal digits of every script count as
digits. An integer in base ten may have at most 4300 digits.
-/

set_option autoImplicit false

namespace SqlMigration

def digitLimit : Nat := 4300

namespace Numeral

inductive Fault where
  | notInteger (base : Nat) (text : Text)
  | tooManyDigits (count : Nat)
  | notFloat (text : Text)
  deriving DecidableEq, Repr

/-- A refused integer is quoted up to 200 characters. -/
def Fault.message : Fault → String
  | .notInteger base text =>
    "invalid literal for int() with base " ++ toString base ++ ": "
      ++ String.ofList ((Quoted.codes text.toList).take 200)
  | .tooManyDigits count =>
    "Exceeds the limit (" ++ toString digitLimit
      ++ " digits) for integer string conversion: value has " ++ toString count
      ++ " digits; use sys.set_int_max_str_digits() to increase the limit"
  | .notFloat text => "could not convert string to float: " ++ Quoted.text text

def isDigit (c : Char) : Bool := '0' ≤ c && c ≤ '9'

def natOf (digits : List Char) : Nat := digits.foldl (fun n c => n * 10 + (c.toNat - 48)) 0

def hexValue? (c : Char) : Option Nat :=
  if '0' ≤ c ∧ c ≤ '9' then some (c.toNat - 48)
  else if 'a' ≤ c ∧ c ≤ 'f' then some (c.toNat - 87)
  else if 'A' ≤ c ∧ c ≤ 'F' then some (c.toNat - 55)
  else none

def hexNumber? : List Char → Option Nat
  | [] => some 0
  | cs => cs.foldl (fun n c => do return (← n) * 16 + (← hexValue? c)) (some 0)

/-- Writes a digit of any script as the usual one, and a blank outside the usual ones as a space. -/
def plainChar (c : Code) : Char :=
  if c.toNat < 127 then c.face
  else
    match digitValue? c.face with
    | some d => Char.ofNat (48 + d)
    | none => if isBlank c then ' ' else c.face

def isWhite (c : Char) : Bool := c = ' ' || ('\t' ≤ c && c ≤ '\r')

def trim (s : List Char) : List Char :=
  (((s.dropWhile isWhite).reverse).dropWhile isWhite).reverse

def dropSign : List Char → List Char
  | '-' :: cs => cs
  | '+' :: cs => cs
  | cs => cs

def isNegative (s : List Char) : Bool := s.head? = some '-'

def digitIn? (base : Nat) (c : Char) : Option Nat := (hexValue? c).filter (· < base)

def announces (base : Nat) (c : Char) : Bool :=
  (base = 2 && (c = 'b' || c = 'B')) || (base = 8 && (c = 'o' || c = 'O'))
    || (base = 16 && (c = 'x' || c = 'X'))

def dropAnnouncement (base : Nat) (s : List Char) : List Char :=
  match s with
  | '0' :: c :: cs => if announces base c then cs else s
  | _ => s

/-- An integer numeral. The limit on digits is looked at before what follows them. -/
def integer (base : Nat) (s : List Code) : Except Fault Int :=
  let body := trim (s.map plainChar)
  let numeral := dropAnnouncement base (dropSign body)
  let digits := numeral.takeWhile (fun c => (digitIn? base c).isSome)
  if base = 10 ∧ digitLimit < digits.length then .error (.tooManyDigits digits.length)
  else if digits.isEmpty ∨ digits.length ≠ numeral.length then
    .error (.notInteger base (.ofList s))
  else
    let n : Int := digits.foldl (fun n c => n * base + ((digitIn? base c).getD 0)) 0
    .ok (if isNegative body then -n else n)

def decimal? (s : List Char) : Option Double :=
  let body := dropSign s
  let whole := body.takeWhile isDigit
  let rest := body.drop whole.length
  let (fraction, rest) := match rest with
    | '.' :: more => (more.takeWhile isDigit, more.dropWhile isDigit)
    | _ => ([], rest)
  let number (power : Int) : Double :=
    Double.ofDecimal (isNegative s) (natOf (whole ++ fraction)) (power - fraction.length)
  if whole.isEmpty ∧ fraction.isEmpty then none
  else
    match rest with
    | [] => some (number 0)
    | 'e' :: more =>
      let digits := dropSign more
      if digits.isEmpty || !digits.all isDigit then none
      else
        let n : Int := natOf digits
        some (number (if isNegative more then -n else n))
    | _ => none

/-- A numeral in lower case: a decimal, or one of the words for what is no finite number. -/
def double (s : List Code) : Except Fault Double :=
  let body := trim (s.map plainChar)
  let unsigned := String.ofList (dropSign body)
  if unsigned = "inf" ∨ unsigned = "infinity" then .ok (.infinite (isNegative body))
  else if unsigned = "nan" then .ok .nan
  else
    match decimal? body with
    | some x => .ok x
    | none => .error (.notFloat (.ofList s))

end Numeral

end SqlMigration
