import SqlMigration.Table
import SqlMigration.Text.Utf8

/-!
# File trees

A place is the list of names on the way from the root. A tree tells for each
place what is there: a file with its content, a directory, or a symbolic link
with the path that it stands for. The root is always a directory.
-/

set_option autoImplicit false

namespace SqlMigration

abbrev Place := List String

inductive Node where
  | file (content : Bytes)
  | directory
  | link (target : String)
  deriving DecidableEq, Repr

structure Tree where
  entries : Table Place Node
  deriving Repr

namespace Tree

def empty : Tree := ⟨[]⟩

def node? (t : Tree) (p : Place) : Option Node :=
  if p = [] then some .directory else Table.get? t.entries p

def put (t : Tree) (p : Place) (n : Node) : Tree := ⟨Table.put t.entries p n⟩

def remove (t : Tree) (p : Place) : Tree := ⟨Table.remove t.entries p⟩

def isBelow (p q : Place) : Bool := p.isPrefixOf q && p.length < q.length

/-- Removes everything below a place, but not what is at the place. -/
def clear (t : Tree) (p : Place) : Tree := ⟨t.entries.filter (fun e => !isBelow p e.1)⟩

def nameLE (a b : String) : Bool := !decide (b < a)

/-- The names in a directory. A file system may list them in any order; here they are sorted, and what is
said about the order of a walk is said about this one. -/
def names (t : Tree) (p : Place) : List String :=
  let found := t.entries.filterMap (fun e =>
    if e.1.dropLast = p then e.1.getLast? else none)
  found.mergeSort nameLE

@[simp]
theorem node?_put_self {t : Tree} {p : Place} {n : Node} (h : p ≠ []) :
    (t.put p n).node? p = some n := by
  simp [node?, put, h]

theorem node?_put_of_ne {t : Tree} {p q : Place} {n : Node} (h : p ≠ q) :
    (t.put p n).node? q = t.node? q := by
  by_cases hq : q = []
  · simp [node?, hq]
  · simp [node?, put, hq, Table.get?_put_of_ne _ _ h]

end Tree

end SqlMigration
