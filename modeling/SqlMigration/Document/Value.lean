import SqlMigration.Document.Calendar
import SqlMigration.Number.Double
import SqlMigration.Text.Codes

/-!
# Document values

What a document holds once it has been read. A scalar can be a key; entries of a
mapping stand in the order of their keys' first appearance. Parts of a document
may be shared, and a part may even enclose itself. Such a document is a heap of
parts that refer to each other by number, and a value in it is a place in the
heap; `layer` shows the outermost layer of any value as a tree.
-/

set_option autoImplicit false

namespace SqlMigration

/-- There are many values that are not a number, and none of them equals another: `which` tells them
apart. -/
inductive Scalar where
  | null
  | bool (b : Bool)
  | int (n : Int)
  | float (x : Double)
  | nan (which : Nat)
  | text (s : Text)
  | bytes (b : Bytes)
  | date (d : Date)
  | moment (m : Moment)
  deriving DecidableEq, Repr

namespace Scalar

def ofDouble (which : Nat) : Double → Scalar
  | .nan => .nan which
  | x => .float x

def number? : Scalar → Option (Double ⊕ Int)
  | .bool b => some (.inr (if b then 1 else 0))
  | .int n => some (.inr n)
  | .float x => some (.inl x)
  | _ => none

/-- Equality of keys: numbers of every kind, truth values among them, are compared by value. -/
def same (a b : Scalar) : Bool :=
  match a, b with
  | .null, .null => true
  | .nan i, .nan j => i = j
  | .text s, .text t => s = t
  | .bytes s, .bytes t => s = t
  | .date d, .date e => d = e
  | .moment m, .moment n => m.same n
  | a, b =>
    match a.number?, b.number? with
    | some (.inr m), some (.inr n) => m = n
    | some (.inr m), some (.inl x) => x.sameInt m
    | some (.inl x), some (.inr n) => x.sameInt n
    | some (.inl x), some (.inl y) => x.same y
    | _, _ => false

end Scalar

/-- Entries by key. A repeated key keeps its first place and has its last value. -/
def putEntry {α : Type} : List (Scalar × α) → Scalar → α → List (Scalar × α)
  | [], k, v => [(k, v)]
  | (a, b) :: rest, k, v => if a.same k then (a, v) :: rest else (a, b) :: putEntry rest k v

def entriesOf {α : Type} (pairs : List (Scalar × α)) : List (Scalar × α) :=
  pairs.foldl (fun entries p => putEntry entries p.1 p.2) []

inductive Part where
  | scalar (s : Scalar)
  | list (items : List Nat)
  | pairs (items : List (Nat × Nat))
  | set (members : List Scalar)
  | map (entries : List (Scalar × Nat))
  deriving DecidableEq, Repr

abbrev Heap := Array Part

def Heap.part (h : Heap) (i : Nat) : Part := h.getD i (.scalar .null)

inductive Value where
  | scalar (s : Scalar)
  | list (items : List Value)
  | pair (first second : Value)
  | set (members : List Scalar)
  | map (entries : List (Scalar × Value))
  | place (heap : Heap) (i : Nat)
  deriving Repr

namespace Value

def ofPart (h : Heap) : Part → Value
  | .scalar s => .scalar s
  | .list items => .list (items.map (.place h))
  | .pairs items => .list (items.map (fun p => .pair (.place h p.1) (.place h p.2)))
  | .set members => .set members
  | .map entries => .map (entries.map (fun e => (e.1, .place h e.2)))

def layer : Value → Value
  | .place h i => ofPart h (h.part i)
  | v => v

def scalar? (v : Value) : Option Scalar :=
  match v.layer with
  | .scalar s => some s
  | _ => none

def entries? (v : Value) : Option (List (Scalar × Value)) :=
  match v.layer with
  | .map entries => some entries
  | _ => none

/-- The items of a list or the members of a set. A set has no order of its own; its members stand in
the order in which the document has them first. -/
def items? (v : Value) : Option (List Value) :=
  match v.layer with
  | .list items => some items
  | .set members => some (members.map .scalar)
  | _ => none

def field? (entries : List (Scalar × Value)) (name : String) : Option Value :=
  match entries with
  | [] => none
  | (.text s, v) :: rest => if s = name then some v else field? rest name
  | _ :: rest => field? rest name

end Value

end SqlMigration
