/-!
# Runs of code points

A class of characters is given by the first and the last code point of each of
its runs, in ascending order.
-/

set_option autoImplicit false

namespace SqlMigration

abbrev Runs := List (Nat × Nat)

def Runs.holds : Runs → Nat → Bool
  | [], _ => false
  | (low, high) :: rest, n => if n < low then false else n ≤ high || holds rest n

end SqlMigration
