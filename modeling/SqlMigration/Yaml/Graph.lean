import SqlMigration.Table
import SqlMigration.Yaml.Fault
import SqlMigration.Yaml.Tag
import SqlMigration.Yaml.Token

/-!
# Document graphs

A document is a list of cells that refer to each other by number. An anchor
names a cell from its start on, so that a cell may be a part of itself. A text
holds at most one document. The tokens may break off with a fault, which is met
when a token is asked for after the last one.
-/

set_option autoImplicit false

namespace SqlMigration.Yaml

inductive Cell where
  | scalar (tag : Tag) (text : Text)
  | sequence (tag : Tag) (items : List Nat)
  | mapping (tag : Tag) (pairs : List (Nat × Nat))
  deriving Repr

structure Graph where
  cells : Array Cell
  root : Nat

structure Composer where
  tokens : List Token
  fault : Option Fault
  cells : Array Cell
  anchors : Table String Nat
  handles : Table String String

abbrev Compose := StateT Composer (Except Fault)

namespace Compose

def malformed {α : Type} : Compose α := throw .malformed

def peek : Compose (Option Token) := do
  let c ← get
  match c.tokens, c.fault with
  | [], some f => throw f
  | ts, _ => return ts.head?

def advance : Compose Unit := modify (fun c => { c with tokens := c.tokens.drop 1 })

def alloc (cell : Cell) : Compose Nat :=
  modifyGet (fun c => (c.cells.size, { c with cells := c.cells.push cell }))

def fill (i : Nat) (cell : Cell) : Compose Unit :=
  modify (fun c => { c with cells := c.cells.setIfInBounds i cell })

def bind (anchor : Option String) (i : Nat) : Compose Unit := do
  match anchor with
  | none => pure ()
  | some name =>
    let c ← get
    if (Table.get? c.anchors name).isSome then malformed
    else set { c with anchors := Table.put c.anchors name i }

def emptyScalar : Compose Nat := alloc (.scalar .null "")

def fullTag (handle : Option String) (suffix : String) : Compose String := do
  match handle with
  | none => return suffix
  | some h =>
    match Table.get? (← get).handles h with
    | none => malformed
    | some target => return target ++ suffix

def properties : Compose (Option String × Option String) := do
  let readTag : Compose (Option String) := do
    match ← peek with
    | some (.tag handle suffix) => advance; return some (← fullTag handle suffix)
    | _ => return none
  let readAnchor : Compose (Option String) := do
    match ← peek with
    | some (.anchor name) => advance; return some name
    | _ => return none
  match ← peek with
  | some (.anchor name) =>
    advance
    return (some name, ← readTag)
  | some (.tag handle suffix) =>
    advance
    let anchor ← readAnchor
    return (anchor, some (← fullTag handle suffix))
  | _ => return (none, none)

/-- An exclamation mark on its own asks for the type that a node would have without a tag. -/
def tagOr (fallback : Tag) : Option String → Tag
  | none => fallback
  | some t => if t = "!" then fallback else Tag.ofText t

def scalarTag (plain : Bool) (text : Text) (tag : Option String) : Tag :=
  match tag with
  | none => if plain then Tag.implicit text else .str
  | some t => if t = "!" then Tag.implicit text else Tag.ofText t

def isOneOf (ts : List Token) : Option Token → Bool
  | none => false
  | some t => t ∈ ts

/-- How many kinds of nodes may stand at a place: in brackets, in a block, or in a block where a
sequence needs no indentation. -/
inductive Place where
  | flow
  | block
  | unindented
  deriving DecidableEq, Repr

def emptyNode (anchor tag : Option String) : Compose Nat := do
  if anchor.isNone && tag.isNone then malformed
  let i ← alloc (.scalar (scalarTag true "" tag) "")
  bind anchor i
  return i

/-- A sequence whose items are read once its cell and its anchor exist. -/
def sequenceOf (anchor tag : Option String) (items : Compose (List Nat)) : Compose Nat := do
  let t := tagOr .seq tag
  let i ← alloc (.sequence t [])
  bind anchor i
  fill i (.sequence t (← items))
  return i

def mappingOf (anchor tag : Option String) (pairs : Compose (List (Nat × Nat))) : Compose Nat := do
  let t := tagOr .map tag
  let i ← alloc (.mapping t [])
  bind anchor i
  fill i (.mapping t (← pairs))
  return i

def orEmpty (ends : List Token) (read : Compose Nat) : Compose Nat := do
  if isOneOf ends (← peek) then emptyScalar else read

def valueOr (ends : List Token) (read : Compose Nat) : Compose Nat := do
  if (← peek) = some .value then
    advance
    orEmpty ends read
  else emptyScalar

def blockEnds : List Token := [.key, .value, .blockEnd]

def separated (first : Bool) : Compose Unit := do
  if !first then
    if (← peek) = some .flowEntry then advance else malformed

mutual

def node : Nat → Place → Compose Nat
  | 0, _ => malformed
  | fuel + 1, place => do
    match ← peek with
    | some (.alias name) =>
      advance
      match Table.get? (← get).anchors name with
      | some i => return i
      | none => malformed
    | _ =>
      let (anchor, tag) ← properties
      match ← peek with
      | some (.scalar plain text) =>
        advance
        let i ← alloc (.scalar (scalarTag plain text tag) text)
        bind anchor i
        return i
      | some .flowSequence =>
        advance
        sequenceOf anchor tag (flowItems fuel true)
      | some .flowMapping =>
        advance
        mappingOf anchor tag (flowPairs fuel true)
      | some .blockSequence =>
        if place = .flow then emptyNode anchor tag
        else
          advance
          sequenceOf anchor tag (blockItems fuel)
      | some .blockMapping =>
        if place = .flow then emptyNode anchor tag
        else
          advance
          mappingOf anchor tag (blockPairs fuel)
      | some .blockEntry =>
        if place = .unindented then sequenceOf anchor tag (unindentedItems fuel)
        else emptyNode anchor tag
      | _ => emptyNode anchor tag

def blockItems : Nat → Compose (List Nat)
  | 0 => malformed
  | fuel + 1 => do
    match ← peek with
    | some .blockEntry =>
      advance
      let i ← orEmpty [.blockEntry, .blockEnd] (node fuel .block)
      return i :: (← blockItems fuel)
    | some .blockEnd =>
      advance
      return []
    | _ => malformed

def unindentedItems : Nat → Compose (List Nat)
  | 0 => malformed
  | fuel + 1 => do
    if (← peek) = some .blockEntry then
      advance
      let i ← orEmpty (.blockEntry :: blockEnds) (node fuel .block)
      return i :: (← unindentedItems fuel)
    else return []

def blockPairs : Nat → Compose (List (Nat × Nat))
  | 0 => malformed
  | fuel + 1 => do
    match ← peek with
    | some .key =>
      advance
      let k ← orEmpty blockEnds (node fuel .unindented)
      let v ← valueOr blockEnds (node fuel .unindented)
      return (k, v) :: (← blockPairs fuel)
    | some .blockEnd =>
      advance
      return []
    | _ => malformed

def flowItems : Nat → Bool → Compose (List Nat)
  | 0, _ => malformed
  | fuel + 1, first => do
    if (← peek) = some .flowSequenceEnd then
      advance
      return []
    separated first
    match ← peek with
    | some .key =>
      advance
      let i ← mappingOf none none (do
        let k ← orEmpty [.value, .flowEntry, .flowSequenceEnd] (node fuel .flow)
        let v ← valueOr [.flowEntry, .flowSequenceEnd] (node fuel .flow)
        return [(k, v)])
      return i :: (← flowItems fuel false)
    | some .flowSequenceEnd =>
      advance
      return []
    | _ =>
      let i ← node fuel .flow
      return i :: (← flowItems fuel false)

def flowPairs : Nat → Bool → Compose (List (Nat × Nat))
  | 0, _ => malformed
  | fuel + 1, first => do
    if (← peek) = some .flowMappingEnd then
      advance
      return []
    separated first
    match ← peek with
    | some .key =>
      advance
      let k ← orEmpty [.value, .flowEntry, .flowMappingEnd] (node fuel .flow)
      let v ← valueOr [.flowEntry, .flowMappingEnd] (node fuel .flow)
      return (k, v) :: (← flowPairs fuel false)
    | some .flowMappingEnd =>
      advance
      return []
    | _ =>
      let k ← node fuel .flow
      let v ← emptyScalar
      return (k, v) :: (← flowPairs fuel false)

end

def defaultHandles : Table String String := [("!", "!"), ("!!", Tag.space)]

/-- The directives in front of a document: at most one version, which must be 1, and no handle twice. -/
def directives : Nat → Bool → Table String String → Compose (Table String String)
  | 0, _, handles => return handles
  | fuel + 1, versioned, handles => do
    match ← peek with
    | some (.directive d) =>
      advance
      match d with
      | .version major =>
        if versioned || major ≠ 1 then malformed else directives fuel true handles
      | .handle name target =>
        if (Table.get? handles name).isSome then malformed
        else directives fuel versioned (Table.put handles name target)
      | .other => directives fuel versioned handles
    | _ => return handles

def explicitStart (fuel : Nat) : Compose Unit := do
  let handles ← directives fuel false []
  if (← peek) ≠ some .documentStart then malformed
  advance
  let missing := defaultHandles.filter (fun p => (Table.get? handles p.1).isNone)
  modify (fun c => { c with handles := handles ++ missing })

def startsDocument : Option Token → Bool
  | some (.directive _) | some .documentStart => true
  | _ => false

def skipEnds : Nat → Compose Unit
  | 0 => pure ()
  | fuel + 1 => do
    if (← peek) = some .documentEnd then
      advance
      skipEnds fuel

/-- The one document. Another one after it is refused once it has started. -/
def document (fuel : Nat) : Compose Nat := do
  let i ←
    if startsDocument (← peek) then
      explicitStart fuel
      let t ← peek
      if startsDocument t || t = some .documentEnd || t = none then emptyScalar
      else node fuel .block
    else node fuel .block
  skipEnds fuel
  if (← peek) ≠ none then
    explicitStart fuel
    malformed
  return i

def documentOrNone (fuel : Nat) : Compose (Option Nat) := do
  if (← peek) = none then return none
  return some (← document fuel)

end Compose

def Graph.ofTokens (tokens : List Token) (fault : Option Fault) : Except Fault (Option Graph) := do
  let start : Composer := ⟨tokens, fault, #[], [], Compose.defaultHandles⟩
  let (root, c) ← (Compose.documentOrNone (2 * tokens.length + 2)).run start
  return root.map (Graph.mk c.cells)

end SqlMigration.Yaml
