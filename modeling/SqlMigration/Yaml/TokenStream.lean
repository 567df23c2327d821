import SqlMigration.Table
import SqlMigration.Yaml.Lexeme

/-!
# From text to tokens

Block structure shows in the columns of a text. A deeper column opens a block
and a return to a smaller one closes it. A key need not be announced: a token
that may start one is remembered, by the depth of brackets around it, until a
value indicator on the same line makes it a key. So long as it is remembered, the
tokens from it on are not yet ready for use. A fault in the text is met when all
tokens that were ready before it have been used up.
-/

set_option autoImplicit false

namespace SqlMigration.Yaml

/-- A token that may turn out to start a key. `count` tokens stand before it. -/
structure Candidate where
  count : Nat
  required : Bool
  index : Nat
  line : Nat
  column : Nat
  deriving Repr

/-- `done` holds the tokens so far, the last one first, and `count` is their number. -/
structure Scanner where
  here : Cursor
  done : List Token
  count : Nat
  flow : Nat
  indent : Int
  indents : List Int
  keyAllowed : Bool
  candidates : Table Nat Candidate

namespace Scanner

def ofCursor (p : Cursor) : Scanner :=
  { here := p, done := [], count := 0, flow := 0, indent := -1, indents := [], keyAllowed := true,
    candidates := [] }

def push (s : Scanner) (t : Token) : Scanner :=
  { s with done := t :: s.done, count := s.count + 1 }

/-- A candidate does not outlive its line, nor 1024 characters; one that had to be a key is missed. -/
def dropStale (s : Scanner) : Scan Scanner :=
  let stale (c : Candidate) : Bool := c.line ≠ s.here.line || 1024 < s.here.index - c.index
  if s.candidates.any (fun p => stale p.2 && p.2.required) then .error .malformed
  else .ok { s with candidates := s.candidates.filter (fun p => !stale p.2) }

def dropCandidate (s : Scanner) : Scan Scanner :=
  match Table.get? s.candidates s.flow with
  | none => .ok s
  | some c =>
    if c.required then .error .malformed
    else .ok { s with candidates := Table.remove s.candidates s.flow }

def saveCandidate (s : Scanner) : Scan Scanner :=
  if s.keyAllowed then do
    let required := s.flow = 0 && s.indent = s.here.column
    let c : Candidate := ⟨s.count, required, s.here.index, s.here.line, s.here.column⟩
    let s ← s.dropCandidate
    return { s with candidates := Table.put s.candidates s.flow c }
  else .ok s

/-- Closes the present block and those of the list around it that are deeper than the column. -/
def unwind (column : Int) (s : Scanner) : List Int → Scanner
  | [] => { s with indents := [] }
  | i :: rest =>
    if column < s.indent then unwind column ({ s with indent := i }.push .blockEnd) rest
    else { s with indents := i :: rest }

def closeBlocks (s : Scanner) (column : Int) : Scanner :=
  if s.flow = 0 then unwind column s s.indents else s

def openBlock (s : Scanner) (column : Int) (t : Token) : Scanner :=
  if s.indent < column then
    { s with indents := s.indent :: s.indents, indent := column }.push t
  else s

def lexeme (s : Scanner) (read : Cursor → Scan (Token × Cursor)) : Scan Scanner := do
  let (t, p) ← read s.here
  return { s with here := p }.push t

def indicator (s : Scanner) (t : Token) (length : Nat) : Scan Scanner := do
  return { s with here := ← s.here.forward length }.push t

def fetchDirective (s : Scanner) : Scan Scanner := do
  let s ← (s.closeBlocks (-1)).dropCandidate
  lexeme { s with keyAllowed := false } (fun p => do directive (← p.step))

def fetchSeparator (s : Scanner) (t : Token) : Scan Scanner := do
  let s ← (s.closeBlocks (-1)).dropCandidate
  { s with keyAllowed := false }.indicator t 3

def fetchFlowStart (s : Scanner) (t : Token) : Scan Scanner := do
  let s ← s.saveCandidate
  { s with flow := s.flow + 1, keyAllowed := true }.indicator t 1

def fetchFlowEnd (s : Scanner) (t : Token) : Scan Scanner := do
  let s ← s.dropCandidate
  if s.flow = 0 then throw .malformed
  { s with flow := s.flow - 1, keyAllowed := false }.indicator t 1

def fetchFlowEntry (s : Scanner) : Scan Scanner := do
  let s ← { s with keyAllowed := true }.dropCandidate
  s.indicator .flowEntry 1

def fetchBlockEntry (s : Scanner) : Scan Scanner := do
  if s.flow = 0 && !s.keyAllowed then throw .malformed
  let s := if s.flow = 0 then s.openBlock s.here.column .blockSequence else s
  let s ← { s with keyAllowed := true }.dropCandidate
  s.indicator .blockEntry 1

def fetchKey (s : Scanner) : Scan Scanner := do
  if s.flow = 0 && !s.keyAllowed then throw .malformed
  let s := if s.flow = 0 then s.openBlock s.here.column .blockMapping else s
  let s ← { s with keyAllowed := s.flow = 0 }.dropCandidate
  s.indicator .key 1

/-- Announces the key that a candidate starts, and the block mapping if the key opens one. -/
def announce (s : Scanner) (c : Candidate) : Scanner :=
  let behind := s.count - c.count
  let after := s.done.take behind
  let s := { s with done := s.done.drop behind, count := c.count }
  let s := (if s.flow = 0 then s.openBlock c.column .blockMapping else s).push .key
  { s with
    done := after ++ s.done, count := behind + s.count, keyAllowed := false,
    candidates := Table.remove s.candidates s.flow }

def fetchValue (s : Scanner) : Scan Scanner := do
  match Table.get? s.candidates s.flow with
  | some c => (s.announce c).indicator .value 1
  | none =>
    if s.flow = 0 && !s.keyAllowed then throw .malformed
    let s := if s.flow = 0 then s.openBlock s.here.column .blockMapping else s
    let s ← { s with keyAllowed := s.flow = 0 }.dropCandidate
    s.indicator .value 1

def fetchName (s : Scanner) (read : Cursor → Scan (Token × Cursor)) : Scan Scanner := do
  let s ← s.saveCandidate
  lexeme { s with keyAllowed := false } read

def fetchBlock (s : Scanner) (isFolded : Bool) : Scan Scanner := do
  let s ← { s with keyAllowed := true }.dropCandidate
  lexeme s (fun p => do
    let (text, q) ← block isFolded s.indent (← p.step)
    return (.scalar false (.ofChars text), q))

def fetchQuoted (s : Scanner) (double : Bool) : Scan Scanner :=
  s.fetchName (fun p => do
    let (text, q) ← quoted double p
    return (.scalar false (.ofList text), q))

def fetchPlain (s : Scanner) : Scan Scanner := do
  let s ← s.saveCandidate
  let (text, broken, p) ← plain (s.flow ≠ 0) (s.indent + 1) s.here.fuel s.here
  return { s with here := p, keyAllowed := broken }.push (.scalar true (.ofChars text))

def notPlain : List Char :=
  ['-', '?', ':', ',', '[', ']', '\x7b', '\x7d', '#', '&', '*', '!', '|', '>', apostrophe, '"', '%',
    '@', '\x60']

def gapAfter (s : Scanner) : Scan Bool := return gapOrEnd (← s.here.peekAt 1)

def startsPlain (s : Scanner) (c : Char) : Scan Bool := do
  if !(isGap c || c ∈ notPlain) then return true
  let gap ← s.gapAfter
  return !gap && (c = '-' || (s.flow = 0 && (c = '?' || c = ':')))

def atBorder (s : Scanner) (c : Char) : Scan Bool := do
  if s.here.column = 0 && (← s.here.peek) = some c then s.here.atSeparator else return false

/-- A key or a value indicator needs a gap after it, unless it stands in brackets. -/
def indicates (s : Scanner) : Scan Bool := do
  if s.flow ≠ 0 then return true else s.gapAfter

def fetchAnchor (s : Scanner) (token : String → Token) : Scan Scanner :=
  s.fetchName (fun p => do
    let (name, q) ← anchorName (← p.step)
    return (token name, q))

def fetchMark? (s : Scanner) (c : Char) : Scan (Option Scanner) := do
  if c = '-' then
    if ← s.gapAfter then return some (← s.fetchBlockEntry)
  if c = '?' then
    if ← s.indicates then return some (← s.fetchKey)
  if c = ':' then
    if ← s.indicates then return some (← s.fetchValue)
  return none

def fetch (s : Scanner) (c : Char) : Scan Scanner := do
  if c = '%' && s.here.column = 0 then return ← s.fetchDirective
  if ← s.atBorder '-' then return ← s.fetchSeparator .documentStart
  if ← s.atBorder '.' then return ← s.fetchSeparator .documentEnd
  if let some after ← s.fetchMark? c then return after
  if c = '[' then s.fetchFlowStart .flowSequence
  else if c = '\x7b' then s.fetchFlowStart .flowMapping
  else if c = ']' then s.fetchFlowEnd .flowSequenceEnd
  else if c = '\x7d' then s.fetchFlowEnd .flowMappingEnd
  else if c = ',' then s.fetchFlowEntry
  else if c = '*' then s.fetchAnchor .alias
  else if c = '&' then s.fetchAnchor .anchor
  else if c = '!' then s.fetchName tag
  else if c = '|' && s.flow = 0 then s.fetchBlock false
  else if c = '>' && s.flow = 0 then s.fetchBlock true
  else if c = apostrophe then s.fetchQuoted false
  else if c = '"' then s.fetchQuoted true
  else if ← s.startsPlain c then s.fetchPlain
  else throw .malformed

def next (s : Scanner) : Scan (Bool × Scanner) := do
  let start ←
    if s.here.index = 0 && (← s.here.peek) = some '\uFEFF' then s.here.step else pure s.here
  let (broken, p) ← Cursor.skipToToken start.fuel start
  let s ← dropStale { s with here := p, keyAllowed := s.keyAllowed || (broken && s.flow = 0) }
  let s := s.closeBlocks s.here.column
  match ← s.here.peek with
  | some c => return (true, ← dropStale (← s.fetch c))
  | none => return (false, ← (s.closeBlocks (-1)).dropCandidate)

def ready (s : Scanner) : List Token :=
  s.done.reverse.take (s.candidates.foldl (fun n p => min n p.2.count) s.count)

def run : Nat → Scanner → List Token × Option Fault
  | 0, s => (s.ready, some .malformed)
  | fuel + 1, s =>
    match s.next with
    | .error f => (s.ready, some f)
    | .ok (true, after) => run fuel after
    | .ok (false, after) => (after.done.reverse, none)

end Scanner

def Token.ofCursor (p : Cursor) : List Token × Option Fault :=
  Scanner.run p.fuel (Scanner.ofCursor p)

end SqlMigration.Yaml
