import SqlMigration.Document.Layout
import SqlMigration.Macro.Escape
import SqlMigration.Macro.Expansion
import SqlMigration.Macro.Glob
import SqlMigration.Schema.Field
import SqlMigration.Table

/-!
# Macros

A macros document gives, for each path pattern, a table of macros and their
values. For one file the tables of all patterns that fit its path are merged, a
later value replacing an earlier one. Expansion replaces macros by values;
reversal works the same way on the tables with keys and values exchanged.
-/

set_option autoImplicit false

namespace SqlMigration

abbrev Macros := Table Text (Table Text Text)

namespace Macros

def swap (t : Table Text Text) : Table Text Text :=
  Table.ofPairs (t.map (fun p => (p.2, p.1)))

def reversed (m : Macros) : Macros := m.map (fun p => (p.1, swap p.2))

def merged (m : Macros) (path : String) : Table Text Text :=
  (m.filter (fun p => globMatches p.1 path)).foldl (fun t p => t.putAll p.2) []

def rules (t : Table Text Text) : List Expansion.Rule :=
  t.map (fun p => (p.1.toList, p.2.toList))

def applyTable (t : Table Text Text) (text : Text) : Text :=
  .ofList (Expansion.expand (rules t) text.toList)

def expand (m : Macros) (path : String) (text : Text) : Text := applyTable (m.merged path) text

def unexpand (m : Macros) (path : String) (text : Text) : Text := expand m.reversed path text

/-- The merged table with its keys as they stand in the search pattern, and that pattern. -/
def patterns (m : Macros) (path : String) : Table Text Text × Text :=
  let t := m.merged path
  (t.map (fun p => (.ofList (Escape.escape p.1.toList), p.2)),
    .ofList (Escape.joined (t.map (fun p => p.1.toList))))

open Schema

def pairFaults {α β : Type} (key : Check α) (value : Check β) (p : Scalar × Value) :
    List (Scalar × Report) :=
  faultOf "key" (present key (.scalar p.1)) ++ faultOf "value" (present value p.2)

/-- A free mapping. Pairs with an unfit key are reported first. -/
def pairsOf {α β : Type} [DecidableEq α] (key : Check α) (value : Check β) : Check (Table α β) :=
  fun v =>
  match v.entries? with
  | none => .error (.one .notMapping)
  | some entries =>
    let badKey (p : Scalar × Value) : Bool := !(faultOf "key" (present key (.scalar p.1))).isEmpty
    let badValue (p : Scalar × Value) : Bool := !(faultOf "value" (present value p.2)).isEmpty
    let bad := entries.filter badKey ++ entries.filter (fun p => !badKey p && badValue p)
    if bad.isEmpty then
      .ok (Table.ofPairs (entries.filterMap (fun p =>
        match present key (.scalar p.1), present value p.2 with
        | .ok a, .ok b => some (a, b)
        | _, _ => none)))
    else .error (.pairs (bad.map (fun p => (p.1, .fields (pairFaults key value p)))))

def check : Check Macros := fun v =>
  match v.entries? with
  | none => .error .notRecord
  | some entries =>
    let macros := required (pairsOf text (pairsOf text text)) entries "macros"
    match macros, unknownFields ["macros"] entries with
    | .ok macros, [] => .ok macros
    | macros, unknown => .error (.fields (faultOf "macros" macros ++ unknown))

open Layout in
def term (m : Macros) : Term :=
  .sorted [("macros", .sorted (m.map (fun p => (p.1, .sorted (p.2.map (fun q => (q.1, .text q.2)))))))]

end Macros

end SqlMigration
