import SqlMigration.Number.Double

/-!
# Shortest decimal text of a double

The text has the fewest decimal digits that read back as the same double, and of
those the nearest to its value. Numbers from `0.0001` up to sixteen digits before
the point are written positionally, all others with an exponent.
-/

set_option autoImplicit false

namespace SqlMigration.Shortest

/-- The place of the leading decimal digit: the greatest `k` with `10 ^ k ≤ num / den`. -/
def leadingPlace (num den : Nat) : Int :=
  if den ≤ num then ((Nat.toDigits 10 (num / den)).length : Int) - 1
  else
    let k := (Nat.toDigits 10 ((den + num - 1) / num)).length
    if den ≤ num * Nat.pow 10 (k - 1) then -((k : Int) - 1) else -(k : Int)

/-- `num / den` counted in units of `10 ^ unit`, as quotient, remainder and divisor. -/
def inUnits (num den : Nat) (unit : Int) : Nat × Nat × Nat :=
  let n := if unit < 0 then num * Nat.pow 10 (-unit).toNat else num
  let d := if 0 ≤ unit then den * Nat.pow 10 unit.toNat else den
  (n / d, n % d, d)

/-- Of the two neighbours with the given unit, the nearest that reads back. -/
def neighbour? (x : Double) (num den : Nat) (unit : Int) : Option Nat :=
  let (q, r, d) := inUnits num den unit
  let low := decide (Double.ofDecimal false q unit = x)
  let high := decide (Double.ofDecimal false (q + 1) unit = x)
  let lowNearer := 2 * r < d || (2 * r = d && q % 2 = 0)
  if low && (lowNearer || !high) then some q
  else if high then some (q + 1)
  else none

def search (x : Double) (num den : Nat) (place : Int) : Nat → Nat → Nat × Int
  | 0, count => ((inUnits num den (place - count)).1, place - count)
  | fuel + 1, count =>
    let unit := place - count
    match neighbour? x num den unit with
    | some q => (q, unit)
    | none => search x num den place fuel (count + 1)

def trim : Nat → Nat × Int → Nat × Int
  | 0, p => p
  | fuel + 1, (n, e) => if n ≠ 0 ∧ n % 10 = 0 then trim fuel (n / 10, e + 1) else (n, e)

def digits (m : Nat) (e : Int) : Nat × Int :=
  let num := Double.natScale m e
  let den := Double.natScale 1 (-e)
  trim 20 (search (.finite false m e) num den (leadingPlace num den) 17 0)

def positional (s : List Char) (exponent : Int) : List Char :=
  if 0 ≤ exponent then s ++ List.replicate exponent.toNat '0' ++ ['.', '0']
  else
    let places := (-exponent).toNat
    if places < s.length then s.take (s.length - places) ++ '.' :: s.drop (s.length - places)
    else '0' :: '.' :: List.replicate (places - s.length) '0' ++ s

def scientific (s : List Char) (place : Int) : List Char :=
  let head := match s with
    | [] => []
    | [c] => [c]
    | c :: cs => c :: '.' :: cs
  let power := Nat.toDigits 10 place.natAbs
  let padded := if power.length < 2 then '0' :: power else power
  head ++ 'e' :: (if place < 0 then '-' else '+') :: padded

def ofDigits (n : Nat) (exponent : Int) : List Char :=
  let s := Nat.toDigits 10 n
  let place := (s.length : Int) - 1 + exponent
  if -4 ≤ place ∧ place < 16 then positional s exponent else scientific s place

end SqlMigration.Shortest

namespace SqlMigration.Double

def text : Double → String
  | .nan => "nan"
  | .infinite negative => if negative then "-inf" else "inf"
  | .finite negative m e =>
    let sign := if negative then "-" else ""
    if m = 0 then sign ++ "0.0"
    else
      let (n, k) := Shortest.digits m e
      sign ++ String.ofList (Shortest.ofDigits n k)

end SqlMigration.Double
