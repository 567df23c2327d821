import SqlMigration.Text.Codes

/-!
# Expansion

Replacing the keys of a list of rules in a text, from left to right. At each
place the first rule whose key stands there is used, and its value is not looked
at again. An empty key stands everywhere, once at each place; after it has been
used a rule with a longer key may still be used at the same place.
-/

set_option autoImplicit false

namespace SqlMigration.Expansion

abbrev Rule := List Code × List Code

def first? (rules : List Rule) (s : List Code) : Option Rule :=
  rules.find? (fun r => r.1.isPrefixOf s)

def firstNonempty? (rules : List Rule) (s : List Code) : Option Rule :=
  rules.find? (fun r => !r.1.isEmpty && r.1.isPrefixOf s)

/-- What is used at a place: the value of an empty key, if that comes first, and then a rule with a
key that is not empty. -/
def atPlace (rules : List Rule) (s : List Code) : List Code × Option Rule :=
  match first? rules s with
  | some ([], v) => (v, firstNonempty? rules s)
  | r => ([], r)

/-- Expands a text of whose start `skip` characters belong to the key used last. -/
def expandFrom (rules : List Rule) (skip : Nat) : List Code → List Code
  | [] => if skip = 0 then (atPlace rules []).1 else []
  | c :: cs =>
    match skip with
    | k + 1 => expandFrom rules k cs
    | 0 =>
      match atPlace rules (c :: cs) with
      | (v, some r) => v ++ r.2 ++ expandFrom rules (r.1.length - 1) cs
      | (v, none) => v ++ c :: expandFrom rules 0 cs

def expand (rules : List Rule) (s : List Code) : List Code := expandFrom rules 0 s

end SqlMigration.Expansion
