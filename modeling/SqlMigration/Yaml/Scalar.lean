import SqlMigration.Document.Value
import SqlMigration.Text.Lowercase
import SqlMigration.Yaml.Fault
import SqlMigration.Yaml.Tag

/-!
# Values of scalars

What the text of a scalar stands for, given its type.
-/

set_option autoImplicit false

namespace SqlMigration.Yaml

def fail {α : Type} (f : ScalarFault) : Except Fault α := .error (.scalar f)

def numeral {α : Type} (r : Except Numeral.Fault α) : Except Fault α :=
  r.mapError (fun f => .scalar (.numeral f))

def signed (s : List Code) : Except Fault (Bool × List Code) :=
  match s with
  | [] => fail .emptyNumber
  | c :: cs => .ok (c = '-', if c = '-' ∨ c = '+' then cs else c :: cs)

def negateIf (negative : Bool) (n : Int) : Int := if negative then -n else n

def readInt (text : Text) : Except Fault Scalar := do
  let (negative, s) ← signed (text.toList.filter (· ≠ .char '_'))
  let integer (base : Nat) (s : List Code) : Except Fault Int := numeral (Numeral.integer base s)
  let n ←
    match s with
    | [] => fail .emptyNumber
    | [.char '0'] => pure 0
    | .char '0' :: .char 'b' :: rest => integer 2 rest
    | .char '0' :: .char 'x' :: rest => integer 16 rest
    | .char '0' :: _ => integer 8 s
    | _ =>
      if .char ':' ∈ s then do
        let parts ← (s.splitOn (.char ':')).mapM (integer 10)
        pure (parts.foldl (fun n part => n * 60 + part) 0)
      else integer 10 s
  return .int (negateIf negative n)

def powerOfSixty (k : Nat) : Except Fault Double :=
  match Double.ofRatio false (Nat.pow 60 k) 1 with
  | .infinite _ => fail .hugePower
  | x => .ok x

/-- The sum of the parts from the last to the first, the `k`th with the `k`th power of sixty, added
to `sum`; every step is rounded. -/
def sumOfSixties (sum : Double) (k : Nat) : List Double → Except Fault Double
  | [] => .ok sum
  | part :: rest => do sumOfSixties (sum.add (part.mul (← powerOfSixty k))) (k + 1) rest

/-- A float. The word for what is no number always gives the same value, a numeral one of its own. -/
def readFloat (which : Nat) (text : Text) : Except Fault Scalar := do
  let (negative, s) ← signed (lowercase (text.toList.filter (· ≠ .char '_')))
  if s = (".nan" : Text).toList then return .nan 0
  let x ←
    if s = (".inf" : Text).toList then pure (Double.infinite false)
    else if .char ':' ∈ s then do
      let parts ← (s.splitOn (.char ':')).mapM (fun part => numeral (Numeral.double part))
      sumOfSixties Double.zero 0 parts.reverse
    else numeral (Numeral.double s)
  return .ofDouble which (if negative then x.neg else x)

def readBool (text : Text) : Except Fault Scalar :=
  let lower := Text.ofList (lowercase text.toList)
  if lower ∈ (["yes", "true", "on"] : List Text) then .ok (.bool true)
  else if lower ∈ (["no", "false", "off"] : List Text) then .ok (.bool false)
  else fail (.notFlag lower)

def readTimestamp (text : Text) : Except Fault Scalar :=
  match stamp? (dropFinalFeed (text.toList.map Code.face)) with
  | none => fail .notTimestamp
  | some (.date d) =>
    match Calendar.dateFault? d with
    | some f => fail (.calendar f)
    | none => .ok (.date d)
  | some (.moment m) =>
    match Calendar.momentFault? m with
    | some f => fail (.calendar f)
    | none => .ok (.moment m)

def sextet? (c : Char) : Option Nat :=
  if 'A' ≤ c ∧ c ≤ 'Z' then some (c.toNat - 65)
  else if 'a' ≤ c ∧ c ≤ 'z' then some (c.toNat - 71)
  else if '0' ≤ c ∧ c ≤ '9' then some (c.toNat + 4)
  else if c = '+' then some 62
  else if c = '/' then some 63
  else none

/-- Reads base 64 with `held` sextets of the present group in `left` and `pads` padding signs seen in
a row. Characters outside the alphabet are passed over; a full group of padding ends the text. -/
def base64From (held left pads : Nat) : List Char → Option Bytes
  | [] => if held = 0 then some [] else none
  | c :: cs =>
    if c = '=' then
      if 2 ≤ held ∧ 4 ≤ held + pads + 1 then some []
      else base64From held left (if 2 ≤ held then pads + 1 else pads) cs
    else
      match sextet? c with
      | none => base64From held left pads cs
      | some n =>
        if held = 0 then base64From 1 n 0 cs
        else if held = 1 then
          (base64From 2 (n % 16) 0 cs).map (UInt8.ofNat (left * 4 + n / 16) :: ·)
        else if held = 2 then
          (base64From 3 (n % 4) 0 cs).map (UInt8.ofNat (left * 16 + n / 4) :: ·)
        else (base64From 0 0 0 cs).map (UInt8.ofNat (left * 64 + n) :: ·)

def readBinary (text : Text) : Except Fault Scalar :=
  let s := text.toList
  if s.all (fun c => c.toNat < 128) then
    match base64From 0 0 0 (s.map Code.face) with
    | some b => .ok (.bytes b)
    | none => .error .malformed
  else .error .malformed

def scalarOf (which : Nat) (tag : Tag) (text : Text) : Except Fault Scalar :=
  match tag with
  | .null => .ok .null
  | .bool => readBool text
  | .int => readInt text
  | .float => readFloat which text
  | .binary => readBinary text
  | .timestamp => readTimestamp text
  | .str => .ok (.text text)
  | _ => .error .malformed

end SqlMigration.Yaml
