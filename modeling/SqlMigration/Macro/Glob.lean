import SqlMigration.Text.Codes

/-!
# Path patterns

In a pattern `*` stands for any run of characters, slashes and line feeds among
them, `?` for any one character and a bracketed set for one of its members, or
for any other character when the set starts with `!`. A bracket that is not
closed stands for itself. A range whose ends are in the wrong order is empty.
-/

set_option autoImplicit false

namespace SqlMigration

namespace Glob

inductive Piece where
  | run
  | single
  | literal (c : Code)
  | member (negated : Bool) (singles : List Code) (ranges : List (Code × Code))
  deriving DecidableEq, Repr

/-- Cuts the inside of a set at the hyphens that make ranges. A hyphen makes a range only when at
least `skip` characters stand before it. -/
def cut : Nat → List Code → List Code → List (List Code)
  | _, current, [] => [current.reverse]
  | 0, current, c :: cs =>
    if c = '-' then current.reverse :: cut 2 [] cs else cut 0 (c :: current) cs
  | k + 1, current, c :: cs => cut k (c :: current) cs

/-- A hyphen at the very end stands for itself. -/
def closeHyphen : List (List Code) → List (List Code)
  | [] => []
  | [c] => [c]
  | [c, []] => [c ++ [.char '-']]
  | c :: rest => c :: closeHyphen rest

/-- Takes out the ranges that are empty, from the last one on. -/
def dropEmptyRanges : List (List Code) → List (List Code)
  | [] => []
  | c :: rest =>
    match dropEmptyRanges rest with
    | [] => [c]
    | d :: ds =>
      match c.getLast?, d.head? with
      | some x, some y => if y < x then (c.dropLast ++ d.drop 1) :: ds else c :: d :: ds
      | _, _ => c :: d :: ds

def rangesOf : List (List Code) → List (Code × Code)
  | c :: d :: rest =>
    match c.getLast?, d.head? with
    | some x, some y => (x, y) :: rangesOf (d :: rest)
    | _, _ => rangesOf (d :: rest)
  | _ => []

def memberOf (inside : List Code) : Piece :=
  let chunks := cut (if inside.head? = some (.char '!') then 2 else 1) [] inside
  match dropEmptyRanges (closeHyphen chunks) with
  | (.char '!' :: c) :: rest => .member true (c ++ rest.flatten) (rangesOf (c :: rest))
  | chunks => .member false chunks.flatten (rangesOf chunks)

/-- What stands between an opening bracket and the bracket that closes it. A closing bracket right
at the start, or right after `!`, is a member of the set. -/
def inside? (s : List Code) : Option (List Code) :=
  let head := match s with
    | .char '!' :: .char ']' :: _ => ['!', ']']
    | .char '!' :: _ => ['!']
    | .char ']' :: _ => [']']
    | _ => []
  let rest := s.drop head.length
  if .char ']' ∈ rest then some (head ++ rest.takeWhile (· ≠ .char ']')) else none

/-- The pieces of a pattern, after passing over `skip` characters. -/
def piecesFrom (skip : Nat) : List Code → List Piece
  | [] => []
  | c :: cs =>
    match skip with
    | k + 1 => piecesFrom k cs
    | 0 =>
      if c = '*' then
        match piecesFrom 0 cs with
        | .run :: ps => .run :: ps
        | ps => .run :: ps
      else if c = '?' then .single :: piecesFrom 0 cs
      else if c = '[' then
        match inside? cs with
        | some inside => memberOf inside :: piecesFrom (inside.length + 1) cs
        | none => .literal c :: piecesFrom 0 cs
      else .literal c :: piecesFrom 0 cs

def pieces (pattern : List Code) : List Piece := piecesFrom 0 pattern

def Piece.accepts (c : Code) : Piece → Bool
  | .run => false
  | .single => true
  | .literal d => c = d
  | .member negated singles ranges =>
    (c ∈ singles || ranges.any (fun r => r.1 ≤ c && c ≤ r.2)) != negated

def Piece.front (p : Piece) (test : List Code → Bool) : List Code → Bool
  | [] => false
  | c :: cs => p.accepts c && test cs

def someSuffix (test : List Code → Bool) : List Code → Bool
  | [] => test []
  | c :: cs => test (c :: cs) || someSuffix test cs

def accepts : List Piece → List Code → Bool
  | [], s => s.isEmpty
  | .run :: ps, s => someSuffix (accepts ps) s
  | p :: ps, s => p.front (accepts ps) s

/-! ### All suffixes at once

Trying one way after another takes long when there are many runs. Instead it is
found out for every suffix of the text whether the last pieces stand for it,
starting with no piece and adding one piece at a time in front.
-/

def suffixes : List Code → List (List Code)
  | [] => [[]]
  | c :: cs => (c :: cs) :: suffixes cs

def trueFrom : List Bool → List Bool
  | [] => []
  | b :: bs =>
    let later := trueFrom bs
    (b || later.headD false) :: later

def extendRow (p : Piece) (s : List Code) (row : List Bool) : List Bool :=
  match p with
  | .run => trueFrom row
  | p => List.zipWith (fun c b => p.accepts c && b) s (row.drop 1) ++ [false]

/-- For each suffix of the text whether the pieces stand for it. -/
def row (ps : List Piece) (s : List Code) : List Bool :=
  ps.foldr (fun p row => extendRow p s row) ((suffixes s).map List.isEmpty)

theorem trueFrom_map (test : List Code → Bool) (s : List Code) :
    trueFrom ((suffixes s).map test) = (suffixes s).map (someSuffix test) := by
  induction s with
  | nil => simp [suffixes, trueFrom, someSuffix]
  | cons c cs ih =>
    have head : ((suffixes cs).map (someSuffix test)).headD false = someSuffix test cs := by
      cases cs <;> rfl
    simp only [suffixes, List.map_cons, trueFrom, ih, head, someSuffix]

theorem zipWith_suffixes (p : Piece) (test : List Code → Bool) (s : List Code) :
    List.zipWith (fun c b => p.accepts c && b) s (((suffixes s).map test).drop 1) ++ [false] =
      (suffixes s).map (p.front test) := by
  induction s with
  | nil => rfl
  | cons c cs ih =>
    have split : (suffixes cs).map test = test cs :: ((suffixes cs).map test).drop 1 := by
      cases cs <;> rfl
    simp only [suffixes, List.map_cons, List.drop_succ_cons, List.drop_zero]
    rw [split, List.zipWith_cons_cons, List.cons_append, ih]
    rfl

theorem row_eq_map (ps : List Piece) (s : List Code) : row ps s = (suffixes s).map (accepts ps) := by
  induction ps with
  | nil => rfl
  | cons p ps ih =>
    have step : row (p :: ps) s = extendRow p s (row ps s) := rfl
    rw [step, ih]
    cases p with
    | run => exact trueFrom_map (accepts ps) s
    | single => exact zipWith_suffixes .single (accepts ps) s
    | literal d => exact zipWith_suffixes (.literal d) (accepts ps) s
    | member negated singles ranges =>
      exact zipWith_suffixes (.member negated singles ranges) (accepts ps) s

def fits (ps : List Piece) (s : List Code) : Bool := (row ps s).headD false

theorem fits_eq_accepts (ps : List Piece) (s : List Code) : fits ps s = accepts ps s := by
  rw [fits, row_eq_map]
  cases s <;> rfl

end Glob

def globMatches (pattern : Text) (path : String) : Bool :=
  Glob.fits (Glob.pieces pattern.toList) (path : Text).toList

end SqlMigration
