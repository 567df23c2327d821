/-!
# Binary floating point numbers

A double is sign, significand and binary exponent. All arithmetic here is exact
on natural numbers; `ofRatio` is the one place where a value is rounded, to the
nearest double and on a tie to the even one.
-/

set_option autoImplicit false

namespace SqlMigration

/-- `finite negative m e` stands for `m * 2 ^ e`, with `m < 2 ^ 53` and `m` as large as it can be. -/
inductive Double where
  | finite (negative : Bool) (significand : Nat) (exponent : Int)
  | infinite (negative : Bool)
  | nan
  deriving DecidableEq, Repr

namespace Double

def leastExponent : Int := -1074

def greatestExponent : Int := 971

def zero : Double := .finite false 0 leastExponent

def natScale (n : Nat) (e : Int) : Nat := if 0 ≤ e then n * Nat.pow 2 e.toNat else n

/-- The quotient of `num * 2 ^ (-e)` by `den`, with the remainder against the scaled divisor. -/
def scaledQuotient (num den : Nat) (e : Int) : Nat × Nat × Nat :=
  let n := natScale num (-e)
  let d := natScale den e
  (n / d, n % d, d)

def roundHalfEven (q r d : Nat) : Nat :=
  if 2 * r < d then q
  else if d < 2 * r then q + 1
  else if q % 2 = 0 then q else q + 1

/-- The exponent that leaves a quotient of 53 binary digits, or the least one. -/
def exponentFor (num den : Nat) : Int :=
  let guess : Int := (Nat.log2 num : Int) - (Nat.log2 den : Int) - 52
  let q := (scaledQuotient num den guess).1
  max leastExponent (if q < Nat.pow 2 52 then guess - 1 else guess)

def ofRatio (negative : Bool) (num den : Nat) : Double :=
  if num = 0 then .finite negative 0 leastExponent
  else
    let e := exponentFor num den
    let (q, r, d) := scaledQuotient num den e
    let m := roundHalfEven q r d
    let (m, e) := if m = Nat.pow 2 53 then (Nat.pow 2 52, e + 1) else (m, e)
    if greatestExponent < e then .infinite negative else .finite negative m e

/-- The double nearest to `digits * 10 ^ exponent`; far exponents are settled without computing. -/
def ofDecimal (negative : Bool) (digits : Nat) (exponent : Int) : Double :=
  if digits = 0 then .finite negative 0 leastExponent
  else
    let magnitude := ((Nat.toDigits 10 digits).length : Int) + exponent
    if 400 < magnitude then .infinite negative
    else if magnitude < -400 then .finite negative 0 leastExponent
    else if 0 ≤ exponent then ofRatio negative (digits * Nat.pow 10 exponent.toNat) 1
    else ofRatio negative digits (Nat.pow 10 (-exponent).toNat)

def ratio? : Double → Option (Int × Nat)
  | .finite negative m e =>
    let n : Int := natScale m e
    some (if negative then -n else n, natScale 1 (-e))
  | _ => none

def ofIntRatio (num : Int) (den : Nat) : Double := ofRatio (num < 0) num.natAbs den

def neg : Double → Double
  | .finite s m e => .finite (!s) m e
  | .infinite s => .infinite (!s)
  | .nan => .nan

def mul (a b : Double) : Double :=
  match a, b with
  | .finite s m e, .finite t n f =>
    ofRatio (s != t) (natScale (m * n) (e + f)) (natScale 1 (-(e + f)))
  | .infinite s, .infinite t => .infinite (s != t)
  | .infinite s, .finite t n _ => if n = 0 then .nan else .infinite (s != t)
  | .finite s m _, .infinite t => if m = 0 then .nan else .infinite (s != t)
  | _, _ => .nan

def add (a b : Double) : Double :=
  match a, b with
  | .finite s m e, .finite t n f =>
    match ratio? (.finite s m e), ratio? (.finite t n f) with
    | some (p, q), some (u, v) =>
      let sum := p * v + u * q
      if sum = 0 then .finite (s && t) 0 leastExponent else ofIntRatio sum (q * v)
    | _, _ => .nan
  | .infinite s, .infinite t => if s = t then .infinite s else .nan
  | .infinite s, .finite _ _ _ => .infinite s
  | .finite _ _ _, .infinite t => .infinite t
  | _, _ => .nan

/-- Numerical equality: the two zeros are equal and nothing equals `nan`. -/
def same (a b : Double) : Bool :=
  match a, b with
  | .finite s m e, .finite t n f => (m = 0 && n = 0) || (s = t && m = n && e = f)
  | .infinite s, .infinite t => s = t
  | _, _ => false

def sameInt (a : Double) (n : Int) : Bool :=
  match ratio? a with
  | some (p, q) => p = n * q
  | none => false

end Double

end SqlMigration
