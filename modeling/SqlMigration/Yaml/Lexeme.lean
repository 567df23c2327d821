import SqlMigration.Number.Numeral
import SqlMigration.Yaml.Cursor
import SqlMigration.Yaml.Token

/-!
# Lexemes of a YAML text

The parts of a text that stand for one token: scalars of the four kinds, names
of anchors, tags and directives. Each function starts at a cursor and gives what
it has read and the cursor after it.
-/

set_option autoImplicit false

namespace SqlMigration.Yaml

open Cursor
open Numeral (hexNumber? hexValue? isDigit natOf)

/-- The line breaks from here on, between spaces; `none` when a document border follows one. -/
def plainBreaks : Nat → Cursor → Scan (Option (List Char) × Cursor)
  | 0, p => return (some [], p)
  | fuel + 1, p => do
    let p ← p.skipSpaces
    match ← p.lineBreak? with
    | none => return (some [], p)
    | some (b, q) =>
      if ← q.atSeparator then return (none, q)
      let (more, q) ← plainBreaks fuel q
      return (more.map (b :: ·), q)

def folded (first : Char) (more : List Char) : List Char :=
  if first ≠ '\n' then first :: more
  else if more.isEmpty then [' '] else more

def plainSpaces (p : Cursor) : Scan (List Char × Bool × Cursor) := do
  let (spaces, p) ← p.takeWhile (· = ' ')
  match ← p.lineBreak? with
  | none => return (spaces, false, p)
  | some (b, q) =>
    if ← q.atSeparator then return ([], true, q)
    match ← plainBreaks q.fuel q with
    | (some more, r) => return (folded b more, true, r)
    | (none, r) => return ([], true, r)

def flowIndicators : List Char := [',', '[', ']', '\x7b', '\x7d']

/-- The number of characters of a plain scalar up to the next gap or indicator; `none` when that
takes a look beyond the characters given. -/
def plainRun? (flow : Bool) : List Char → Option Nat
  | [] => none
  | c :: cs =>
    if isGap c || (flow && (c = '?' || c ∈ flowIndicators)) then some 0
    else if c = ':' then
      match cs with
      | [] => none
      | d :: _ =>
        if isGap d || (flow && d ∈ flowIndicators) then some 0 else (plainRun? flow cs).map (· + 1)
    else (plainRun? flow cs).map (· + 1)

/-- The number of characters up to the end of the text, where a colon at the very end is left out. -/
def plainRunToEnd (s : List Char) : Nat := if s.getLast? = some ':' then s.length - 1 else s.length

def plainRun (flow : Bool) (p : Cursor) : Scan (List Char × Cursor) := do
  match plainRun? flow p.rest, p.tail with
  | some n, _ => return (p.rest.take n, ← p.forward n)
  | none, some f => throw f
  | none, none =>
    let n := plainRunToEnd p.rest
    return (p.rest.take n, ← p.forward n)

/-- A plain scalar, and whether its last gap ended a line. Text on further lines belongs to it when
it is indented by at least `indent` columns. -/
def plain (flow : Bool) (indent : Int) : Nat → Cursor → Scan (List Char × Bool × Cursor)
  | 0, p => return ([], false, p)
  | fuel + 1, p => do
    if (← p.peek) = some '#' then return ([], false, p)
    let (run, q) ← plainRun flow p
    if run.isEmpty then return ([], false, p)
    let (spaces, broken, q) ← plainSpaces q
    if spaces.isEmpty || (← q.peek) = some '#' || (!flow && (q.column : Int) < indent) then
      return (run, broken, q)
    let (more, brokenLater, r) ← plain flow indent fuel q
    if more.isEmpty then return (run, broken, r)
    return (run ++ spaces ++ more, brokenLater, r)

def quotedBreaks : Nat → Cursor → Scan (List Char × Cursor)
  | 0, p => return ([], p)
  | fuel + 1, p => do
    if ← p.atSeparator then throw .malformed
    let p ← p.skipWhile (fun c => c = ' ' || c = '\t')
    match ← p.lineBreak? with
    | none => return ([], p)
    | some (b, q) =>
      let (more, r) ← quotedBreaks fuel q
      return (b :: more, r)

def quotedSpaces (p : Cursor) : Scan (List Char × Cursor) := do
  let (spaces, p) ← p.takeWhile (fun c => c = ' ' || c = '\t')
  match ← p.peek, ← p.lineBreak? with
  | none, _ => throw .malformed
  | _, some (b, q) =>
    let (more, r) ← quotedBreaks q.fuel q
    return (folded b more, r)
  | _, none => return (spaces, p)

def namedEscapes : List (Char × Char) :=
  [ ('0', '\x00'), ('a', '\x07'), ('b', '\x08'), ('t', '\t'), ('\t', '\t'), ('n', '\n'),
    ('v', '\x0b'), ('f', '\x0c'), ('r', '\r'), ('e', '\x1b'), (' ', ' '), ('"', '"'),
    ('\\', '\\'), ('/', '/'), ('N', '\x85'), ('_', '\xa0'), ('L', '\u2028'), ('P', '\u2029') ]

def codeLength? (c : Char) : Option Nat :=
  if c = 'x' then some 2 else if c = 'u' then some 4 else if c = 'U' then some 8 else none

def codeOf (n : Nat) : Scan Code :=
  if 0x7FFFFFFF < n then .error (.scalar .hugeCodePoint)
  else if 0x10FFFF < n then .error (.scalar .codePoint)
  else .ok (Code.ofNat n)

def hexCode (p : Cursor) (n : Nat) : Scan Nat :=
  let digits := p.rest.take n
  match hexNumber? digits, decide (digits.length = n), p.tail with
  | some code, true, _ => .ok code
  | some _, false, some f => .error f
  | _, _, _ => .error .malformed

def escape (p : Cursor) : Scan (List Code × Cursor) := do
  match ← p.peek with
  | none => throw .malformed
  | some c =>
    match namedEscapes.lookup c, codeLength? c with
    | some e, _ => return ([.char e], ← p.step)
    | none, some n =>
      let q ← p.step
      let e ← codeOf (← hexCode q n)
      return ([e], ← q.forward n)
    | none, none =>
      match ← p.lineBreak? with
      | some (_, q) =>
        let (breaks, q) ← quotedBreaks q.fuel q
        return (breaks.map .char, q)
      | none => throw .malformed

def apostrophe : Char := '\x27'

def isQuotedPlain (c : Char) : Bool :=
  !(c = apostrophe || c = '"' || c = '\\' || isGap c)

def quotedRun (double : Bool) : Nat → Cursor → Scan (List Code × Cursor)
  | 0, _ => throw .malformed
  | fuel + 1, p => do
    let (run, p) ← p.takeWhile isQuotedPlain
    let run : List Code := run.map .char
    let goOn (piece : List Code) (q : Cursor) : Scan (List Code × Cursor) := do
      let (more, r) ← quotedRun double fuel q
      return (run ++ piece ++ more, r)
    match ← p.peek with
    | none => return (run, p)
    | some c =>
      if double then
        if c = apostrophe then goOn [.char c] (← p.step)
        else if c = '\\' then
          let (piece, q) ← escape (← p.step)
          goOn piece q
        else return (run, p)
      else if c = apostrophe then
        if (← p.peekAt 1) = some apostrophe then goOn [.char c] (← p.forward 2) else return (run, p)
      else if c = '"' || c = '\\' then goOn [.char c] (← p.step)
      else return (run, p)

def quotedRest (double : Bool) : Nat → Cursor → Scan (List Code × Cursor)
  | 0, _ => throw .malformed
  | fuel + 1, p => do
    if (← p.peek) = some (if double then '"' else apostrophe) then return ([], ← p.step)
    let (spaces, q) ← quotedSpaces p
    let (run, r) ← quotedRun double q.fuel q
    let (more, t) ← quotedRest double fuel r
    return (spaces.map .char ++ run ++ more, t)

def quoted (double : Bool) (p : Cursor) : Scan (List Code × Cursor) := do
  let (run, q) ← quotedRun double p.fuel (← p.step)
  let (more, r) ← quotedRest double q.fuel q
  return (run ++ more, r)

inductive Chomping where
  | strip
  | clip
  | keep
  deriving DecidableEq, Repr

def chomping? : Option Char → Option Chomping
  | some '+' => some .keep
  | some '-' => some .strip
  | _ => none

/-- An explicit indentation of a block scalar; zero is refused. -/
def indentation? (c : Option Char) : Scan (Option Nat) :=
  match c with
  | some d =>
    if d = '0' then .error .malformed
    else if '1' ≤ d ∧ d ≤ '9' then .ok (some (d.toNat - 48))
    else .ok none
  | none => .ok none

/-- The indicators after `|` or `>`: chomping and indentation in either order. -/
def blockHeader (p : Cursor) : Scan (Chomping × Option Nat × Cursor) := do
  let (chomping, increment, q) ← match chomping? (← p.peek) with
    | some c => do
      let p ← p.step
      match ← indentation? (← p.peek) with
      | some n => pure (c, some n, ← p.step)
      | none => pure (c, none, p)
    | none => do
      match ← indentation? (← p.peek) with
      | some n =>
        let p ← p.step
        match chomping? (← p.peek) with
        | some c => pure (c, some n, ← p.step)
        | none => pure (.clip, some n, p)
      | none => pure (.clip, none, p)
  if spaceOrEnd (← q.peek) then return (chomping, increment, q) else throw .malformed

def ignoredLine (p : Cursor) : Scan Cursor := do
  let p ← (← p.skipSpaces).skipComment
  match ← p.lineBreak? with
  | some (_, q) => return q
  | none => if (← p.peek) = none then return p else throw .malformed

/-- The empty lines before a block scalar whose indentation is not given, and the greatest column
that was reached on them. -/
def leadingLines : Nat → Cursor → Scan (List Char × Nat × Cursor)
  | 0, p => return ([], 0, p)
  | fuel + 1, p => do
    let p ← p.skipSpaces
    match ← p.lineBreak? with
    | none => return ([], p.column, p)
    | some (b, q) =>
      let (more, column, r) ← leadingLines fuel q
      return (b :: more, max p.column column, r)

def toColumn (indent : Int) (p : Cursor) : Scan Cursor :=
  p.forward (min (p.rest.takeWhile (· = ' ')).length (indent - p.column).toNat)

def blockBreaks (indent : Int) : Nat → Cursor → Scan (List Char × Cursor)
  | 0, p => return ([], p)
  | fuel + 1, p => do
    let p ← toColumn indent p
    match ← p.lineBreak? with
    | none => return ([], p)
    | some (b, q) =>
      let (more, r) ← blockBreaks indent fuel q
      return (b :: more, r)

def isBlankStart : Option Char → Bool
  | some c => c = ' ' || c = '\t'
  | none => false

/-- The lines of a block scalar: its text, its last line break and the empty lines after it. -/
def blockLines (isFolded : Bool) (indent : Int) :
    Nat → List Char → Cursor → Scan (List Char × List Char × List Char × Cursor)
  | 0, breaks, p => return ([], [], breaks, p)
  | fuel + 1, breaks, p => do
    let first ← p.peek
    if (p.column : Int) ≠ indent || first = none then return ([], [], breaks, p)
    let (line, p) ← p.takeWhile (fun c => !isBreak c)
    let (lineBreak, p) ← match ← p.lineBreak? with
      | some (b, q) => pure ([b], q)
      | none => pure ([], p)
    let (breaksAfter, p) ← blockBreaks indent p.fuel p
    let next ← p.peek
    if (p.column : Int) ≠ indent || next = none then
      return (breaks ++ line, lineBreak, breaksAfter, p)
    let join :=
      if isFolded && lineBreak = ['\n'] && !isBlankStart first && !isBlankStart next then
        (if breaksAfter.isEmpty then [' '] else [])
      else lineBreak
    let (text, last, after, q) ← blockLines isFolded indent fuel breaksAfter p
    return (breaks ++ line ++ join ++ text, last, after, q)

/-- A block scalar, from after its `|` or `>` on; `indent` is that of the block around it. -/
def block (isFolded : Bool) (indent : Int) (p : Cursor) : Scan (List Char × Cursor) := do
  let (chomping, increment, p) ← blockHeader p
  let p ← ignoredLine p
  let least := max 1 (indent + 1)
  let (column, breaks, p) ← match increment with
    | none => do
      let (breaks, reached, q) ← leadingLines p.fuel p
      pure (max least reached, breaks, q)
    | some n => do
      let column := least + n - 1
      let (breaks, q) ← blockBreaks column p.fuel p
      pure (column, breaks, q)
  let (text, last, after, p) ← blockLines isFolded column p.fuel breaks p
  let tail := match chomping with
    | .strip => []
    | .clip => last
    | .keep => last ++ after
  return (text ++ tail, p)

def anchorName (p : Cursor) : Scan (String × Cursor) := do
  let (name, p) ← p.takeWhile isWord
  let ends := match ← p.peek with
    | none => true
    | some c => isGap c || c ∈ ['?', ':', ',', ']', '\x7d', '%', '@', '\x60']
  if name.isEmpty || !ends then throw .malformed
  return (String.ofList name, p)

def isUriChar (c : Char) : Bool :=
  isWord c || c ∈ [';', '/', '?', ':', '@', '&', '=', '+', '$', ',', '.', '!', '~', '*', apostrophe,
    '(', ')', '[', ']']

def uriBytes : Nat → Cursor → Scan (Bytes × Cursor)
  | 0, p => return ([], p)
  | fuel + 1, p => do
    if (← p.peek) = some '%' then
      let p ← p.step
      let n ← hexCode p 2
      let (more, q) ← uriBytes fuel (← p.forward 2)
      return (UInt8.ofNat n :: more, q)
    else return ([], p)

def uriRest : Nat → Cursor → Scan (List Char × Cursor)
  | 0, p => return ([], p)
  | fuel + 1, p => do
    let (run, p) ← p.takeWhile isUriChar
    if (← p.peek) = some '%' then
      let (bytes, q) ← uriBytes p.fuel p
      match Utf8.decode bytes with
      | .error _ => throw .malformed
      | .ok s =>
        let (more, r) ← uriRest fuel q
        return (run ++ s ++ more, r)
    else return (run, p)

def uri (p : Cursor) : Scan (String × Cursor) := do
  match ← p.peek with
  | some c =>
    if isUriChar c || c = '%' then
      let (s, q) ← uriRest p.fuel p
      return (String.ofList s, q)
    else throw .malformed
  | none => throw .malformed

/-- A tag handle: `!`, `!!` or a word between two exclamation marks. -/
def tagHandle (p : Cursor) : Scan (String × Cursor) := do
  if (← p.peek) ≠ some '!' then throw .malformed
  if (← p.peekAt 1) = some ' ' then return ("!", ← p.step)
  let (name, q) ← (← p.step).takeWhile isWord
  if (← q.peek) = some '!' then return (String.ofList ('!' :: name ++ ['!']), ← q.step)
  throw .malformed

def tag (p : Cursor) : Scan (Token × Cursor) := do
  let next ← p.peekAt 1
  let (handle, suffix, q) ←
    if next = some '<' then do
      let (s, q) ← uri (← p.forward 2)
      if (← q.peek) = some '>' then pure (none, s, ← q.step) else throw .malformed
    else if gapOrEnd next then do
      pure (none, "!", ← p.step)
    else do
      let q ← p.step
      let (_, ahead) ← q.takeWhile (fun c => !(c = '!' || spaceOrEnd (some c)))
      if (← ahead.peek) = some '!' then
        let (h, q) ← tagHandle p
        let (s, r) ← uri q
        pure (some h, s, r)
      else
        let (s, q) ← uri q
        pure (some "!", s, q)
  if spaceOrEnd (← q.peek) then return (.tag handle suffix, q) else throw .malformed

def versionNumber (p : Cursor) : Scan (Nat × Cursor) := do
  let (digits, q) ← p.takeWhile isDigit
  if digits.isEmpty then throw .malformed
  if digitLimit < digits.length then throw (.scalar (.numeral (.tooManyDigits digits.length)))
  return (natOf digits, q)

def directive (p : Cursor) : Scan (Token × Cursor) := do
  let (name, p) ← p.takeWhile isWord
  if name.isEmpty || !spaceOrEnd (← p.peek) then throw .malformed
  let (d, q) ←
    if name = ['Y', 'A', 'M', 'L'] then do
      let (major, p) ← versionNumber (← p.skipSpaces)
      if (← p.peek) ≠ some '.' then throw .malformed
      let (_, p) ← versionNumber (← p.step)
      if !spaceOrEnd (← p.peek) then throw .malformed
      pure (Directive.version major, p)
    else if name = ['T', 'A', 'G'] then do
      let (handle, p) ← tagHandle (← p.skipSpaces)
      if (← p.peek) ≠ some ' ' then throw .malformed
      let (target, p) ← uri (← p.skipSpaces)
      if !spaceOrEnd (← p.peek) then throw .malformed
      pure (Directive.handle handle target, p)
    else do
      pure (Directive.other, ← p.skipWhile (fun c => !isBreak c))
  return (.directive d, ← ignoredLine q)

end SqlMigration.Yaml
