import SqlMigration.Proofs.Macro.Merging

/-!
# Search patterns read back

A search pattern is read one character at a time: a backslash makes the next
character stand for itself, a bar divides alternatives, and a pattern with any
other operator is not read. Read like this, the pattern for a list of keys gives
the keys back in order. So different macros have different escaped forms, each
has an entry of its own in the map that goes with the pattern, and what the
pattern matches is found there.
-/

set_option autoImplicit false

namespace SqlMigration

namespace Escape

/-- The characters that mean something of their own in a pattern when no backslash stands before
them. -/
def operators : List Code :=
  ['.', '^', '$', '*', '+', '?', '\x7b', '\x7d', '[', ']', '\\', '|', '(', ')']

/-- The alternative at the start of a pattern, and those after its bars. -/
structure Alternatives where
  first : List Code
  others : List (List Code)
  deriving DecidableEq, Repr

namespace Alternatives

def extend (s : List Code) (r : Alternatives) : Alternatives := { r with first := s ++ r.first }

def divide (r : Alternatives) : Alternatives := ⟨[], r.first :: r.others⟩

def toList (r : Alternatives) : List (List Code) := r.first :: r.others

end Alternatives

/-- Reads a pattern of literal alternatives, which may follow a backslash. A letter or a digit after a
backslash does not stand for itself, nor does a backslash at the end. -/
def readFrom : Bool → List Code → Option Alternatives
  | false, [] => some ⟨[], []⟩
  | true, [] => none
  | true, c :: cs => if c.face.isAlphanum then none else (readFrom false cs).map (.extend [c])
  | false, c :: cs =>
    if c = '\\' then readFrom true cs
    else if c = '|' then (readFrom false cs).map .divide
    else if c ∈ operators then none
    else (readFrom false cs).map (.extend [c])

def alternatives (pattern : List Code) : Option (List (List Code)) :=
  (readFrom false pattern).map Alternatives.toList

theorem not_isAlphanum_of_special {c : Code} (h : c ∈ special) : c.face.isAlphanum = false := by
  have none : special.all (fun c => !c.face.isAlphanum) = true := by decide
  simpa using List.all_eq_true.mp none c h

theorem operators_subset_special : operators ⊆ special := by decide

theorem readFrom_special {c : Code} (h : c ∈ special) (cs : List Code) :
    readFrom true (c :: cs) = (readFrom false cs).map (.extend [c]) := by
  rw [readFrom, not_isAlphanum_of_special h, if_neg Bool.false_ne_true]

theorem readFrom_plain {c : Code} (h : c ∉ special) (cs : List Code) :
    readFrom false (c :: cs) = (readFrom false cs).map (.extend [c]) := by
  have other : ∀ {o}, o ∈ operators → c ≠ o := fun ho e => h (e ▸ operators_subset_special ho)
  rw [readFrom, if_neg (other (by decide)), if_neg (other (by decide)),
    if_neg (fun ho => h (operators_subset_special ho))]

theorem readFrom_escape (s rest : List Code) :
    readFrom false (escape s ++ rest) = (readFrom false rest).map (.extend s) := by
  induction s with
  | nil => exact (congrFun Option.map_id (readFrom false rest)).symm
  | cons c s ih =>
    have step : (readFrom false (escape s ++ rest)).map (Alternatives.extend [c]) =
        (readFrom false rest).map (Alternatives.extend (c :: s)) := by
      rw [ih, Option.map_map]
      rfl
    rw [escape, List.flatMap_cons, List.append_assoc, escapeCode]
    by_cases h : c ∈ special
    · rw [if_pos h, ← step]
      exact readFrom_special h _
    · rw [if_neg h, ← step]
      exact readFrom_plain h _

theorem readFrom_joined (key : List Code) (keys : List (List Code)) :
    readFrom false (joined (key :: keys)) = some ⟨key, keys⟩ := by
  induction keys generalizing key with
  | nil =>
    have whole := readFrom_escape key []
    rw [List.append_nil] at whole
    rw [joined, List.map_cons, List.map_nil, List.intercalate_singleton, whole]
    simp [readFrom, Alternatives.extend]
  | cons next keys ih =>
    -- the bar after the escaped key is read as one, whatever the key ends with
    have bar : readFrom false (.char '|' :: joined (next :: keys)) = some ⟨[], next :: keys⟩ := by
      rw [readFrom, if_neg (by decide), if_pos rfl, ih]
      rfl
    have cut : joined (key :: next :: keys) = escape key ++ .char '|' :: joined (next :: keys) := by
      simp [joined]
    rw [cut, readFrom_escape, bar]
    simp [Alternatives.extend]

theorem alternatives_joined {keys : List (List Code)} (h : keys ≠ []) :
    alternatives (joined keys) = some keys := by
  obtain ⟨key, keys, rfl⟩ := List.exists_cons_of_ne_nil h
  rw [alternatives, readFrom_joined]
  rfl

theorem joined_singleton (s : List Code) : joined [s] = escape s := List.intercalate_singleton

theorem escape_injective {s t : List Code} (h : escape s = escape t) : s = t := by
  have read := alternatives_joined (List.cons_ne_nil s [])
  rw [joined_singleton, h, ← joined_singleton, alternatives_joined (List.cons_ne_nil t [])] at read
  cases read
  rfl

def escaped (key : Text) : Text := Text.ofList (escape key.toList)

theorem escaped_injective {k l : Text} (h : escaped k = escaped l) : k = l :=
  Text.toList_inj.mp (escape_injective (Text.ofList_inj.mp h))

/-- The alternative that a pattern finds at the start of a text, which is the first that stands there. -/
def found? (pattern s : List Code) : Option (List Code) :=
  (alternatives pattern).bind (fun texts => texts.find? (·.isPrefixOf s))

def Matches (pattern text : Text) : Prop :=
  ∃ texts, alternatives pattern.toList = some texts ∧ text.toList ∈ texts

end Escape

namespace Macros

open Escape

/-- The map and the pattern put together step by step: each value is stored under the escaped form of
its macro, and the keys of the map are joined by bars. -/
def assembled (m : Macros) (path : String) : Table Text Text × Text :=
  let map : Table Text Text := (m.filter (fun g => globMatches g.1 path)).foldl
    (fun t g => t.putAll (Table.rename escaped g.2)) []
  (map, Text.intercalate "|" (Table.keys map))

theorem assembled_fst (m : Macros) (path : String) :
    (m.assembled path).1 = Table.rename escaped (m.merged path) := by
  have step : ∀ (gs : Macros) (t : Table Text Text),
      gs.foldl (fun t g => t.putAll (Table.rename escaped g.2)) (Table.rename escaped t) =
        Table.rename escaped (gs.foldl (fun t g => t.putAll g.2) t) := by
    intro gs
    induction gs with
    | nil => intro t; rfl
    | cons g gs ih =>
      intro t
      rw [List.foldl_cons, Table.putAll_rename (fun _ _ => escaped_injective), ih]
      rfl
  exact step _ []

theorem assembled_eq_patterns (m : Macros) (path : String) : m.assembled path = m.patterns path := by
  have map := m.assembled_fst path
  refine Prod.ext map (Text.toList_inj.mp ?_)
  change (Text.intercalate "|" (Table.keys (m.assembled path).1)).toList = _
  rw [map, Table.keys_rename, Text.intercalate, patterns, Text.toList_ofList, joined]
  simp only [Table.keys, escaped, List.map_map, Function.comp_def]
  rfl

/-- A map and a pattern stand for a table: the map has one entry for each key, under its escaped form,
the pattern has the keys for its alternatives, and what it matches are the texts that the map has. An
empty pattern has an alternative too, which is why nothing is said of an empty table. -/
structure Encodes (t map : Table Text Text) (pattern : Text) : Prop where
  keys : Table.keys map = (Table.keys t).map escaped
  values : ∀ k, Table.get? map (escaped k) = Table.get? t k
  reads : t ≠ [] → alternatives pattern.toList = some ((Table.keys t).map Text.toList)
  matched : t ≠ [] → ∀ text, Matches pattern text ↔ escaped text ∈ Table.keys map
  found : t ≠ [] → ∀ s, found? pattern.toList s = (Expansion.first? (rules t) s).map Prod.fst

theorem encodes_patterns (m : Macros) (path : String) :
    Encodes (m.merged path) (m.patterns path).1 (m.patterns path).2 := by
  have keys : Table.keys (m.patterns path).1 = (Table.keys (m.merged path)).map escaped :=
    Table.keys_rename escaped (m.merged path)
  have read : m.merged path ≠ [] → alternatives (m.patterns path).2.toList =
      some ((Table.keys (m.merged path)).map Text.toList) := by
    intro any
    rw [patterns, Text.toList_ofList, alternatives_joined (by simpa using any), Table.keys, List.map_map]
    rfl
  refine ⟨keys, Table.get?_rename (fun _ _ => escaped_injective) _, read, fun any text => ?_,
    fun any s => ?_⟩
  · rw [Matches, read any, keys, List.mem_map_of_injective (fun _ _ => escaped_injective)]
    simp only [Option.some.injEq, exists_eq_left']
    exact List.mem_map_of_injective (fun _ _ => Text.toList_inj.mp)
  · rw [found?, read any, Option.bind_some, Table.keys, List.map_map, rules, Expansion.first?,
      List.find?_map, List.find?_map, Option.map_map]
    rfl

/-- The pattern for a list of keys, read back, gives the keys in order: each alternative is a key, and
no operator is left in it. Escaped forms tell keys apart. So the map that is put together for a path,
forwards or for reversal, has an entry of its own for each macro, and every match is found there. -/
theorem pattern_read_back :
    (∀ keys : List (List Code), keys ≠ [] → alternatives (joined keys) = some keys) ∧
      (∀ k l : Text, escaped k = escaped l → k = l) ∧
      ∀ (m : Macros) (path : String), m.assembled path = m.patterns path ∧
        Encodes (m.merged path) (m.assembled path).1 (m.assembled path).2 := by
  refine ⟨fun keys => alternatives_joined, fun k l => escaped_injective, fun m path => ?_⟩
  rw [assembled_eq_patterns]
  exact ⟨rfl, m.encodes_patterns path⟩

def awkward : Macros := [("*.sql", [("|", "a"), ("x\\", "b"), ("", "c"), ("[.]\n ", "d"), ("\\|", "e")])]

theorem pattern_read_back_awkward :
    awkward.merged "q.sql" ≠ [] ∧
      (awkward.assembled "q.sql").2 = "\\||x\\\\||\\[\\.\\]\\\n\\ |\\\\\\|" ∧
      alternatives (awkward.assembled "q.sql").2.toList =
        some (([("|" : Text), "x\\", "", "[.]\n ", "\\|"] : List Text).map Text.toList) ∧
      Table.get? (awkward.assembled "q.sql").1 (escaped "\\|") = some ("e" : Text) := by
  have any : awkward.merged "q.sql" ≠ [] := by decide
  obtain ⟨_, _, document⟩ := pattern_read_back
  have encodes := (document awkward "q.sql").2
  exact ⟨any, by decide, encodes.reads any, encodes.values "\\|"⟩

end Macros

end SqlMigration
