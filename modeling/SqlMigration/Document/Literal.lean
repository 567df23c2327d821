import SqlMigration.Document.Value
import SqlMigration.Number.Numeral
import SqlMigration.Number.Shortest
import SqlMigration.Text.Quoted

/-!
# Values shown as text

`literal` is the form that a value has inside another one, with texts quoted;
`display` is the form that it has on its own. A part of a heap that is met again
inside itself is cut short with dots. An integer of more than 4300 digits is not
shown, nor is anything that holds one.
-/

set_option autoImplicit false

namespace SqlMigration

def boolText (b : Bool) : String := if b then "True" else "False"

def intText? (n : Int) : Option String :=
  if Nat.pow 10 digitLimit ≤ n.natAbs then none else some (toString n)

namespace Scalar

def literal? : Scalar → Option String
  | .null => some "None"
  | .bool b => some (boolText b)
  | .int n => intText? n
  | .float x => some x.text
  | .nan _ => some "nan"
  | .text s => some (Quoted.text s)
  | .bytes b => some (Quoted.bytes b)
  | .date d => some d.literal
  | .moment m => some m.literal

def display? : Scalar → Option Text
  | .text s => some s
  | .date d => some d.text
  | .moment m => some m.text
  | s => s.literal?.map Text.ofString

def literal (s : Scalar) : String := s.literal?.getD "..."

end Scalar

namespace Literal

def listed (items : List String) : String := "[" ++ ", ".intercalate items ++ "]"

def paired (a b : String) : String := "(" ++ a ++ ", " ++ b ++ ")"

def braced (items : List String) : String := "\x7b" ++ ", ".intercalate items ++ "\x7d"

def entry (k v : String) : String := k ++ ": " ++ v

def members? : List Scalar → Option String
  | [] => some "set()"
  | members => do return braced (← members.mapM Scalar.literal?)

end Literal

open Literal

def Part.ellipsis : Part → String
  | .map _ => "\x7b...\x7d"
  | _ => "[...]"

/-- Shows a part; `around` are the places of the parts that it is shown inside of. They are all
different, so that the number of parts bounds how deep this goes. -/
def Heap.literal? (h : Heap) : Nat → List Nat → Nat → Option String
  | 0, _, i => some (h.part i).ellipsis
  | fuel + 1, around, i =>
    let inner := Heap.literal? h fuel (i :: around)
    match h.part i with
    | .scalar s => s.literal?
    | .set members => members? members
    | part =>
      if i ∈ around then some part.ellipsis
      else
        match part with
        | .list items => do return listed (← items.mapM inner)
        | .pairs items => do
          return listed (← items.mapM (fun p => do return paired (← inner p.1) (← inner p.2)))
        | .map entries => do
          return braced (← entries.mapM (fun e => do return entry (← e.1.literal?) (← inner e.2)))
        | _ => some part.ellipsis

namespace Value

mutual

def literal? : Value → Option String
  | .scalar s => s.literal?
  | .list items => do return listed (← literals? items)
  | .pair a b => do return paired (← literal? a) (← literal? b)
  | .set members => members? members
  | .map entries => do return braced (← entryLiterals? entries)
  | .place h i => h.literal? (h.size + 1) [] i

def literals? : List Value → Option (List String)
  | [] => some []
  | v :: vs => do return (← literal? v) :: (← literals? vs)

def entryLiterals? : List (Scalar × Value) → Option (List String)
  | [] => some []
  | (k, v) :: rest => do return entry (← k.literal?) (← literal? v) :: (← entryLiterals? rest)

end

def display? (v : Value) : Option Text :=
  match v.layer with
  | .scalar s => s.display?
  | _ => v.literal?.map Text.ofString

end Value

end SqlMigration
