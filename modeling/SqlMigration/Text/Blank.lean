import SqlMigration.Text.Codes

/-!
# Blanks and line ends

The characters that count as white space, and those of them that end a line.
-/

set_option autoImplicit false

namespace SqlMigration

def isBlank (c : Code) : Bool :=
  let n := c.toNat
  (0x09 ≤ n && n ≤ 0x0D) || (0x1C ≤ n && n ≤ 0x20) || n = 0x85 || n = 0xA0 || n = 0x1680 ||
    (0x2000 ≤ n && n ≤ 0x200A) || n = 0x2028 || n = 0x2029 || n = 0x202F || n = 0x205F || n = 0x3000

def endsLine (c : Code) : Bool :=
  let n := c.toNat
  (0x0A ≤ n && n ≤ 0x0D) || (0x1C ≤ n && n ≤ 0x1E) || n = 0x85 || n = 0x2028 || n = 0x2029

/-- Cuts a text after each line end; a carriage return with a line feed is one line end. -/
def lines (s : List Code) : List (List Code) :=
  match s with
  | [] => []
  | c :: cs =>
    let more := lines cs
    if c = '\r' ∧ cs.head? = some (.char '\n') then
      match more with
      | line :: rest => (c :: line) :: rest
      | [] => [[c]]
    else if endsLine c then [c] :: more
    else
      match more with
      | line :: rest => (c :: line) :: rest
      | [] => [[c]]

def words (s : List Code) : List (List Code) :=
  match s with
  | [] => []
  | c :: cs =>
    match words cs, cs.head? with
    | word :: rest, some d =>
      if isBlank c && !isBlank d then [c] :: word :: rest else (c :: word) :: rest
    | more, _ => [c] :: more

end SqlMigration
