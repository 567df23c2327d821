import SqlMigration.Schema.Report

/-!
# Fields of a record

A field is looked up by name and its value is checked. Every field of a record
is checked, so that a report names all of them that are wrong, together with the
keys that no field has.
-/

set_option autoImplicit false

namespace SqlMigration.Schema

abbrev Check (α : Type) := Value → Except Report α

variable {α : Type}

def isNull (v : Value) : Bool := v.scalar? = some .null

def present (check : Check α) : Check α := fun v =>
  if isNull v then .error (.one .null) else check v

def required (check : Check α) (entries : List (Scalar × Value)) (name : String) : Except Report α :=
  match Value.field? entries name with
  | none => .error (.one .missing)
  | some v => present check v

def withDefault (fallback : α) (check : Check α) (entries : List (Scalar × Value)) (name : String) :
    Except Report α :=
  match Value.field? entries name with
  | none => .ok fallback
  | some v => present check v

/-- A field that may be left out, but not null. -/
def optional (check : Check α) (entries : List (Scalar × Value)) (name : String) :
    Except Report (Option α) :=
  withDefault none (fun v => (check v).map some) entries name

/-- A field that may be left out or null. -/
def nullable (check : Check α) (entries : List (Scalar × Value)) (name : String) :
    Except Report (Option α) :=
  match Value.field? entries name with
  | none => .ok none
  | some v => if isNull v then .ok none else (check v).map some

def text : Check Text := fun v =>
  match v.scalar? with
  | some (.text s) => .ok s
  | some (.bytes b) =>
    match Utf8.decode b with
    | .ok s => .ok (.ofChars s)
    | .error _ => .error (.one .notUtf8)
  | _ => .error (.one .notText)

def trueWords : List Text :=
  ["t", "T", "true", "True", "TRUE", "on", "On", "ON", "y", "Y", "yes", "Yes", "YES", "1"]

def falseWords : List Text :=
  ["f", "F", "false", "False", "FALSE", "off", "Off", "OFF", "n", "N", "no", "No", "NO", "0"]

def flag : Check Bool := fun v =>
  let no : Except Report Bool := .error (.one .notFlag)
  match v.scalar? with
  | some (.text s) => if s ∈ trueWords then .ok true else if s ∈ falseWords then .ok false else no
  | some (.bool b) => .ok b
  | some (.int n) => if n = 1 then .ok true else if n = 0 then .ok false else no
  | some (.float x) => if x.sameInt 1 then .ok true else if x.sameInt 0 then .ok false else no
  | _ => no

/-- Checks the members from position `i` on; gives the accepted ones and the faults by position. -/
def members (check : Check α) : Nat → List Value → List α × List (Scalar × Report)
  | _, [] => ([], [])
  | i, v :: vs =>
    let (good, bad) := members check (i + 1) vs
    match present check v with
    | .ok a => (a :: good, bad)
    | .error r => (good, (.int i, r) :: bad)

def listOf (check : Check α) : Check (List α) := fun v =>
  match v.items? with
  | none => .error (.one .notList)
  | some items =>
    match members check 0 items with
    | (good, []) => .ok good
    | (_, bad) => .error (.fields bad)

def faultOf (name : String) : Except Report α → List (Scalar × Report)
  | .ok _ => []
  | .error r => [(.text name, r)]

def isKnown (known : List String) : Scalar → Bool
  | .text s => s ∈ known.map Text.ofString
  | _ => false

def unknownFields (known : List String) (entries : List (Scalar × Value)) : List (Scalar × Report) :=
  (entries.filter (fun p => !isKnown known p.1)).map (fun p => (p.1, .one .unknownField))

end SqlMigration.Schema
