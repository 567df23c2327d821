import SqlMigration.Yaml.Graph
import SqlMigration.Yaml.Scalar
import SqlMigration.Yaml.TokenStream

/-!
# From text to values

Cells are read from the root on, level by level, each once, so that of several
faults the one nearest to the root is told. A mapping may merge others into
itself; their entries come first and its own entries replace them. Merging
changes the cells, and what is read later sees the changed ones.
-/

set_option autoImplicit false

namespace SqlMigration.Yaml

/-- The cells as they are by now, which of them have had their merges done, the parts that have been
made of them, and the collections whose parts are still to be read, the last one first. -/
structure Reader where
  cells : Array Cell
  merged : Array Bool
  parts : Array (Option Part)
  waiting : List Nat

abbrev Read := StateT Reader (Except Fault)

def Cell.tag : Cell → Tag
  | .scalar t _ => t
  | .sequence t _ => t
  | .mapping t _ => t

def Cell.withTag (t : Tag) : Cell → Cell
  | .scalar _ text => .scalar t text
  | .sequence _ items => .sequence t items
  | .mapping _ pairs => .mapping t pairs

namespace Read

def malformed {α : Type} : Read α := throw .malformed

def cell (i : Nat) : Read Cell := return (← get).cells.getD i (.scalar .other "")

def setCell (i : Nat) (c : Cell) : Read Unit :=
  modify (fun r => { r with cells := r.cells.setIfInBounds i c })

def setPart (i : Nat) (p : Part) : Read Unit :=
  modify (fun r => { r with parts := r.parts.setIfInBounds i (some p) })

def pairs (i : Nat) : Read (List (Nat × Nat)) := do
  match ← cell i with
  | .mapping _ pairs => return pairs
  | _ => malformed

def setPairs (i : Nat) (pairs : List (Nat × Nat)) : Read Unit := do
  setCell i (.mapping (← cell i).tag pairs)

def isMerged (i : Nat) : Read Bool := return (← get).merged.getD i true

def settle (i : Nat) (pairs : List (Nat × Nat)) : Read Unit := do
  setPairs i pairs
  modify (fun r => { r with merged := r.merged.setIfInBounds i true })

/-- The pairs that the value of a merge key brings in: those of a mapping, or those of a list of
mappings, where an earlier mapping goes before a later one. -/
def mergedPairs (merge : Nat → Read Unit) (i : Nat) : Read (List (Nat × Nat)) := do
  let ofMapping (j : Nat) : Read (List (Nat × Nat)) := do
    match ← cell j with
    | .mapping _ _ =>
      merge j
      pairs j
    | _ => malformed
  match ← cell i with
  | .sequence _ items => return (← items.mapM ofMapping).reverse.flatten
  | _ => ofMapping i

/-- Goes through the pairs of a mapping: `front` has been merged in and `kept` has been passed, the
last pair first. A default key becomes an ordinary text. A mapping that is met again while it is
merged into itself is settled by then. -/
def mergePairs (merge : Nat → Read Unit) (i : Nat) (front kept : List (Nat × Nat)) :
    List (Nat × Nat) → Read Unit
  | [] => settle i (front ++ kept.reverse)
  | (k, v) :: rest => do
    match (← cell k).tag with
    | .merge =>
      setPairs i (kept.reverse ++ rest)
      let front := front ++ (← mergedPairs merge v)
      if ← isMerged i then settle i (front ++ (← pairs i))
      else mergePairs merge i front kept rest
    | .default =>
      setCell k ((← cell k).withTag .str)
      mergePairs merge i front ((k, v) :: kept) rest
    | _ => mergePairs merge i front ((k, v) :: kept) rest

/-- Merges into a mapping what it asks for. Every call inside another one has used up a merge key, so
that the number of pairs bounds the fuel. -/
def merge : Nat → Nat → Read Unit
  | 0, _ => pure ()
  | fuel + 1, i => do
    if ← isMerged i then pure () else mergePairs (merge fuel) i [] [] (← pairs i)

def pairCount (c : Cell) : Nat :=
  match c with
  | .mapping _ pairs => pairs.length
  | _ => 0

def allPairs (i : Nat) : Read (List (Nat × Nat)) := do
  let r ← get
  merge (r.cells.foldl (fun n c => n + pairCount c) 1) i
  pairs i

/-- The text of a scalar; a mapping stands for the value of its default key. -/
def scalarText : Nat → Nat → Read Text
  | 0, _ => malformed
  | fuel + 1, i => do
    match ← cell i with
    | .scalar _ text => return text
    | .sequence _ _ => malformed
    | .mapping _ pairs =>
      match ← pairs.findM? (fun p => return (← cell p.1).tag = .default) with
      | some p => scalarText fuel p.2
      | none => malformed

def scalar (i : Nat) : Read Scalar := do
  let c ← cell i
  let text ← scalarText ((← get).cells.size + 1) i
  match c.tag, c with
  | .timestamp, .mapping _ _ => throw (.scalar .mappedTimestamp)
  | tag, _ => scalarOf (i + 1) tag text

def emptyPart? : Tag → Option Part
  | .seq => some (.list [])
  | .omap | .pairs => some (.pairs [])
  | .set => some (.set [])
  | .map => some (.map [])
  | _ => none

/-- Reads a cell, if that has not been done before. A collection has to wait for its parts. -/
def part (i : Nat) : Read Part := do
  match ((← get).parts.getD i none), emptyPart? (← cell i).tag with
  | some p, _ => return p
  | none, some p =>
    setPart i p
    modify (fun r => { r with waiting := i :: r.waiting })
    return p
  | none, none =>
    let p := Part.scalar (← scalar i)
    setPart i p
    return p

def key (i : Nat) : Read Scalar := do
  match ← part i with
  | .scalar s => return s
  | _ => malformed

def entries (i : Nat) : Read (List (Scalar × Nat)) := do
  let found ← (← allPairs i).mapM (fun p => do
    let k ← key p.1
    let _ ← part p.2
    return (k, p.2))
  return entriesOf found

def onlyPair (i : Nat) : Read (Nat × Nat) := do
  match ← cell i with
  | .mapping _ [(k, v)] =>
    let _ ← part k
    let _ ← part v
    return (k, v)
  | _ => malformed

def content (i : Nat) : Read Part := do
  let c ← cell i
  match c.tag, c with
  | .seq, .sequence _ items =>
    items.forM (fun j => do let _ ← part j)
    return .list items
  | .omap, .sequence _ items => return .pairs (← items.mapM onlyPair)
  | .pairs, .sequence _ items => return .pairs (← items.mapM onlyPair)
  | .map, .mapping _ _ => return .map (← entries i)
  | .set, .mapping _ _ => return .set ((← entries i).map (·.1))
  | _, _ => malformed

def levels : Nat → Read Unit
  | 0 => pure ()
  | fuel + 1 => do
    match (← get).waiting with
    | [] => pure ()
    | waiting =>
      modify (fun r => { r with waiting := [] })
      waiting.reverse.forM (fun i => do setPart i (← content i))
      levels fuel

def whole (root : Nat) : Read Unit := do
  let _ ← part root
  levels ((← get).cells.size + 1)

end Read

def Graph.value (g : Graph) : Except Fault Value := do
  let n := g.cells.size
  let start : Reader := ⟨g.cells, Array.replicate n false, Array.replicate n none, []⟩
  let (_, r) ← (Read.whole g.root).run start
  return .place (r.parts.map (fun p => p.getD (.scalar .null))) g.root

/-- Reads a document; an empty one is null. -/
def read (b : Bytes) : Except Fault Value := do
  let (tokens, fault) := Token.ofCursor (← Cursor.ofBytes b)
  match ← Graph.ofTokens tokens fault with
  | none => return .scalar .null
  | some g => g.value

end SqlMigration.Yaml
