import SqlMigration.Text.Blank
import SqlMigration.Text.Quoted

/-!
# Terms laid out in eighty columns

A term that fits in the rest of its line is written on one line. Otherwise its
parts stand on lines of their own, aligned after the opening bracket, and a long
text is cut after blanks into several literals below each other.
-/

set_option autoImplicit false

namespace SqlMigration.Layout

def width : Nat := 80

inductive Term where
  | word (s : String)
  | text (s : Text)
  | list (items : List Term)
  | dict (entries : List (Text × Term))
  deriving Repr

def keyLE (a b : Text × Term) : Bool := !decide (b.1 < a.1)

def Term.sorted (entries : List (Text × Term)) : Term := .dict (entries.mergeSort keyLE)

def joined (separator : List Char) (parts : List (List Char)) : List Char :=
  separator.intercalate parts

mutual

def line : Term → List Char
  | .word s => s.toList
  | .text s => Quoted.codes s.toList
  | .list items => '[' :: joined [',', ' '] (linesOfItems items) ++ [']']
  | .dict entries => '\x7b' :: joined [',', ' '] (linesOfEntries entries) ++ ['\x7d']

def linesOfItems : List Term → List (List Char)
  | [] => []
  | t :: ts => line t :: linesOfItems ts

def linesOfEntries : List (Text × Term) → List (List Char)
  | [] => []
  | (k, t) :: rest => (Quoted.codes k.toList ++ ':' :: ' ' :: line t) :: linesOfEntries rest

end

/-- Gathers the words of one line into literals; `room` is kept free after the last word. -/
def gather (indent room : Nat) : List Code → List (List Code) → List (List Char)
  | current, [] => if current.isEmpty then [] else [Quoted.codes current]
  | current, word :: rest =>
    let candidate := current ++ word
    let reserve := if rest.isEmpty then room else 0
    if width < (Quoted.codes candidate).length + indent + reserve then
      let more := gather indent room word rest
      if current.isEmpty then more else Quoted.codes current :: more
    else gather indent room candidate rest

def literals (indent allowance : Nat) : List (List Code) → List (List Char)
  | [] => []
  | s :: rest =>
    let room := if rest.isEmpty then allowance else 0
    let whole := Quoted.codes s
    let here :=
      if whole.length + indent + room ≤ width then [whole] else gather indent room [] (words s)
    here ++ literals indent allowance rest

def breakAt (indent : Nat) : List Char := '\n' :: List.replicate indent ' '

mutual

/-- The layout of a term that starts in column `indent`, with `allowance` columns to stay free after it. -/
def chars (indent allowance : Nat) : Term → List Char
  | .word s => s.toList
  | .text s =>
    let whole := Quoted.codes s.toList
    if s.toList.isEmpty || whole.length + indent + allowance ≤ width then whole
    else joined (breakAt indent) (literals indent allowance (lines s.toList))
  | .list items =>
    let whole := line (.list items)
    if whole.length + indent + allowance ≤ width then whole
    else '[' :: joined (',' :: breakAt (indent + 1)) (charsOfItems (indent + 1) (allowance + 1) items)
      ++ [']']
  | .dict entries =>
    let whole := line (.dict entries)
    if whole.length + indent + allowance ≤ width then whole
    else '\x7b' :: joined (',' :: breakAt (indent + 1))
      (charsOfEntries (indent + 1) (allowance + 1) entries) ++ ['\x7d']

def charsOfItems (indent allowance : Nat) : List Term → List (List Char)
  | [] => []
  | t :: ts => chars indent (if ts.isEmpty then allowance else 1) t :: charsOfItems indent allowance ts

def charsOfEntries (indent allowance : Nat) : List (Text × Term) → List (List Char)
  | [] => []
  | (k, t) :: rest =>
    let key := Quoted.codes k.toList
    (key ++ ':' :: ' ' :: chars (indent + key.length + 2) (if rest.isEmpty then allowance else 1) t)
      :: charsOfEntries indent allowance rest

end

def Term.render (t : Term) : String := String.ofList (chars 0 0 t)

end SqlMigration.Layout
