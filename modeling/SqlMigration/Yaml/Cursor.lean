import SqlMigration.Text.Supply
import SqlMigration.Yaml.Fault

/-!
# Places in a YAML text

A cursor is a place in a text together with its line and its column. Line ends
have been unified before, so that no carriage return is left; next to the line
feed there are three more characters that break a line. The text is taken in
blocks, and the block that a fault prevents is missed only when a character of
it, or the end before it, is looked for.
-/

set_option autoImplicit false

namespace SqlMigration.Yaml

abbrev Scan := Except Fault

def isBreak (c : Char) : Bool := c = '\n' || c = '\x85' || c = '\u2028' || c = '\u2029'

def isGap (c : Char) : Bool := c = ' ' || c = '\t' || isBreak c

/-- The end of the text counts as a gap. -/
def gapOrEnd : Option Char → Bool
  | none => true
  | some c => isGap c

def breakOrEnd : Option Char → Bool
  | none => true
  | some c => isBreak c

def spaceOrEnd (c : Option Char) : Bool := c = some ' ' || breakOrEnd c

def isWord (c : Char) : Bool :=
  ('0' ≤ c && c ≤ '9') || ('A' ≤ c && c ≤ 'Z') || ('a' ≤ c && c ≤ 'z') || c = '-' || c = '_'

def isAllowed (c : Char) : Bool :=
  let n := c.toNat
  n = 0x09 || n = 0x0A || n = 0x0D || (0x20 ≤ n && n ≤ 0x7E) || n = 0x85 ||
    (0xA0 ≤ n && n ≤ 0xFFFD) || 0x10000 ≤ n

/-- `tail` is the fault that stands after the rest of the text, if there is one, and `size` the
number of characters of the whole text before it. -/
structure Cursor where
  rest : List Char
  tail : Option Fault
  size : Nat
  index : Nat
  line : Nat
  column : Nat
  deriving Repr

namespace Cursor

def ofText (s : List Char) (tail : Option Fault) : Cursor := ⟨s, tail, s.length, 0, 0, 0⟩

def fuel (p : Cursor) : Nat := p.size + 1

/-- The start of a text. Its first two blocks are taken and looked through at once, a later block
when it is needed; a character that is not allowed spoils the block it stands in. -/
def ofBytes (b : Bytes) : Scan Cursor :=
  let (text, fault) := textInBlocks b
  let early := 2 * Supply.blockSize
  let good := text.takeWhile isAllowed
  match fault.filter (fun _ => text.length < early) with
  | some f => .error (.encoding f)
  | none =>
    if good.length = text.length then .ok (ofText text (fault.map .encoding))
    else if good.length < early then .error .malformed
    else .ok (ofText (text.take (good.length - good.length % Supply.blockSize)) (some .malformed))

def peekAt (p : Cursor) (n : Nat) : Scan (Option Char) :=
  match p.rest[n]?, p.tail with
  | none, some f => .error f
  | c, _ => .ok c

def peek (p : Cursor) : Scan (Option Char) := p.peekAt 0

/-- A byte order mark takes no column. -/
def after (p : Cursor) : Nat → List Char → Cursor
  | 0, s => { p with rest := s }
  | _ + 1, [] => { p with rest := [] }
  | n + 1, c :: cs =>
    let q := { p with index := p.index + 1 }
    if isBreak c then { q with line := p.line + 1, column := 0 }.after n cs
    else if c = '\uFEFF' then q.after n cs
    else { q with column := p.column + 1 }.after n cs

def forward (p : Cursor) (n : Nat) : Scan Cursor := do
  let q := p.after n p.rest
  let _ ← q.peek
  return q

def step (p : Cursor) : Scan Cursor := p.forward 1

def takeWhile (p : Cursor) (test : Char → Bool) : Scan (List Char × Cursor) := do
  let run := p.rest.takeWhile test
  return (run, ← p.forward run.length)

def skipWhile (p : Cursor) (test : Char → Bool) : Scan Cursor := do return (← p.takeWhile test).2

def skipSpaces (p : Cursor) : Scan Cursor := p.skipWhile (· = ' ')

def skipComment (p : Cursor) : Scan Cursor := do
  if (← p.peek) = some '#' then p.skipWhile (fun c => !isBreak c) else return p

/-- The line break here, as the character that it contributes to a scalar. -/
def lineBreak? (p : Cursor) : Scan (Option (Char × Cursor)) := do
  match ← p.peek with
  | none => return none
  | some c =>
    if c = '\n' ∨ c = '\x85' then return some ('\n', ← p.step)
    else if isBreak c then return some (c, ← p.step)
    else return none

/-- Three hyphens or three dots that stand for the border of a document. -/
def atSeparator (p : Cursor) : Scan Bool := do
  let _ ← p.peekAt 2
  let head := p.rest.take 3
  if head = ['-', '-', '-'] ∨ head = ['.', '.', '.'] then return gapOrEnd (← p.peekAt 3)
  else return false

/-- Passes over spaces, comments and line breaks; tells whether there was a line break. -/
def skipToToken : Nat → Cursor → Scan (Bool × Cursor)
  | 0, p => return (false, p)
  | fuel + 1, p => do
    let p ← (← p.skipSpaces).skipComment
    match ← p.lineBreak? with
    | some (_, q) => return (true, (← skipToToken fuel q).2)
    | none => return (false, p)

end Cursor

end SqlMigration.Yaml
