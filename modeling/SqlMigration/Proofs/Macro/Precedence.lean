import SqlMigration.Proofs.Macro.SinglePass

/-!
# Which entry counts

Of the entries for one macro, in all patterns that fit a path, the last one
counts, and the macro keeps the place of the first. For reversal the same holds
of the entries with one value, among them those that are replaced on the way
forward. Where no value stands for two macros, reversal looks up the macro that
the value was looked up for.
-/

set_option autoImplicit false

namespace SqlMigration.Macros

def fitting (m : Macros) (path : String) : Macros := m.filter (fun g => globMatches g.1 path)

theorem entries_eq_flatMap (m : Macros) (path : String) :
    m.entries path = (m.fitting path).flatMap (·.2) := rfl

/-- The last entry of which a part is the given text, in the last of the patterns that have one. -/
def lastWith? (part : Text × Text → Text) (x : Text) (gs : Macros) : Option (Text × Text) :=
  gs.reverse.findSome? (fun g => g.2.reverse.find? (fun e => part e = x))

/-- A table has the entries of some patterns by one of their parts, in the order in which these first occur,
and with the other part of the last entry for each. -/
structure Gathers (key value : Text × Text → Text) (gs : Macros) (t : Table Text Text) :
    Prop where
  keys : Table.keys t = (gs.flatMap (fun g => g.2.map key)).eraseDups
  values : ∀ x, Table.get? t x = (lastWith? key x gs).map value

theorem gathers_ofPairs (key value : Text × Text → Text) (gs : Macros) :
    Gathers key value gs (Table.ofPairs ((gs.flatMap (·.2)).map (fun e => (key e, value e)))) where
  keys := by
    rw [Table.keys_ofPairs, List.map_map, List.map_flatMap]
    rfl
  values x := by
    rw [Table.get?_ofPairs, ← List.map_reverse, List.find?_map, Option.map_map, List.reverse_flatMap,
      List.find?_flatMap]
    rfl

theorem Gathers.mem_of_get? {key value : Text × Text → Text} {gs : Macros} {t : Table Text Text}
    (h : Gathers key value gs t) {x y : Text} (found : Table.get? t x = some y) :
    ∃ e ∈ gs.flatMap (·.2), key e = x ∧ value e = y := by
  rw [h.values] at found
  obtain ⟨e, last, rfl⟩ := Option.map_eq_some_iff.mp found
  obtain ⟨g, hg, hit⟩ := List.exists_of_findSome?_eq_some last
  have part := List.find?_some hit
  exact ⟨e, List.mem_flatMap.mpr ⟨g, List.mem_reverse.mp hg, List.mem_reverse.mp (List.mem_of_find?_eq_some hit)⟩,
    of_decide_eq_true part, rfl⟩

/-- Whether each pattern is reversed first or all entries are reversed at once makes no difference. -/
theorem merged_reversed (m : Macros) (path : String) :
    m.reversed.merged path = Table.ofPairs ((m.entries path).map (fun e => (e.2, e.1))) := by
  have step : ∀ (l : Macros) (t : Table Text Text),
      t.putAll (l.flatMap (swap ·.2)) = t.putAll ((l.flatMap (·.2)).map (fun e => (e.2, e.1))) := by
    intro l
    induction l with
    | nil => intro t; rfl
    | cons g l ih =>
      intro t
      rw [List.flatMap_cons, List.flatMap_cons, List.map_append, Table.putAll_append, Table.putAll_append,
        swap, Table.putAll_ofPairs, ih]
  rw [merged_eq_ofPairs, entries_reversed]
  exact step _ []

theorem gathers_merged (m : Macros) (path : String) :
    Gathers Prod.fst Prod.snd (m.fitting path) (m.merged path) := by
  have whole := gathers_ofPairs Prod.fst Prod.snd (m.fitting path)
  rwa [List.map_id'' (fun e => rfl), ← entries_eq_flatMap, ← merged_eq_ofPairs] at whole

theorem gathers_reversed (m : Macros) (path : String) :
    Gathers Prod.snd Prod.fst (m.fitting path) (m.reversed.merged path) := by
  rw [merged_reversed]
  exact gathers_ofPairs Prod.snd Prod.fst (m.fitting path)

theorem get?_reversed_get? {m : Macros} {path : String}
    (single : ∀ p ∈ m.entries path, ∀ q ∈ m.entries path, p.2 = q.2 → p.1 = q.1) {k : Text}
    (there : k ∈ Table.keys (m.merged path)) :
    (Table.get? (m.merged path) k).bind (Table.get? (m.reversed.merged path)) = some k := by
  obtain ⟨v, found⟩ := Option.ne_none_iff_exists'.mp
    (fun none => (Table.get?_eq_none_iff _ _).mp none there)
  obtain ⟨e, he, rfl, rfl⟩ := (m.gathers_merged path).mem_of_get? found
  obtain ⟨l, back⟩ := Option.ne_none_iff_exists'.mp
    (fun none => (Table.get?_eq_none_iff _ _).mp none (value_mem_keys_reversed he))
  obtain ⟨f, hf, same, rfl⟩ := (m.gathers_reversed path).mem_of_get? back
  rw [found, Option.bind_some, back, single f hf e he same]

/-- The table for a path has the macros of the patterns that fit the path, each with its value in the last
pattern that has it. The table for reversal has their values, each with the last macro that stands for it in the
last pattern where it occurs. Other patterns have no influence, and a value that stands for one macro only leads
back to it. The keys are escaped in the search pattern, and found again. -/
theorem last_entry_counts (m : Macros) (path : String) :
    Gathers Prod.fst Prod.snd (m.fitting path) (m.merged path) ∧
      Gathers Prod.snd Prod.fst (m.fitting path) (m.reversed.merged path) ∧
      (∀ m' : Macros, m'.fitting path = m.fitting path →
        m'.merged path = m.merged path ∧ m'.reversed.merged path = m.reversed.merged path) ∧
      ((∀ p ∈ m.entries path, ∀ q ∈ m.entries path, p.2 = q.2 → p.1 = q.1) →
        ∀ k ∈ Table.keys (m.merged path),
          (Table.get? (m.merged path) k).bind (Table.get? (m.reversed.merged path)) = some k) ∧
      ∀ n ∈ [m, m.reversed],
        Table.keys (n.patterns path).1 =
            (Table.keys (n.merged path)).map (fun k => Text.ofList (Escape.escape k.toList)) ∧
          ∀ k, n.lookUp path k = Table.get? (n.merged path) k := by
  refine ⟨m.gathers_merged path, m.gathers_reversed path, fun m' same => ?_,
    fun single k there => get?_reversed_get? single there, fun n _ => ⟨?_, n.lookUp_eq path⟩⟩
  · have entries : m'.entries path = m.entries path := by
      rw [entries_eq_flatMap, entries_eq_flatMap, same]
    rw [merged_eq_ofPairs, merged_eq_ofPairs, merged_reversed, merged_reversed, entries]
    exact ⟨rfl, rfl⟩
  · simp [patterns, Table.keys]

def layered : Macros :=
  [("*.sql", [("$A", "x"), ("$B", "y")]), ("r.*", [("$B", "x")]), ("q.*", [("$C", "z"), ("$A", "w")])]

theorem last_entry_counts_layered :
    layered.merged "q.sql" = ([("$A", "w"), ("$B", "y"), ("$C", "z")] : Table Text Text) ∧
      layered.reversed.merged "q.sql" =
        ([("x", "$A"), ("y", "$B"), ("z", "$C"), ("w", "$A")] : Table Text Text) ∧
      (∀ p ∈ layered.entries "q.sql", ∀ q ∈ layered.entries "q.sql", p.2 = q.2 → p.1 = q.1) ∧
      (Table.get? (layered.merged "q.sql") "$A").bind (Table.get? (layered.reversed.merged "q.sql")) =
        some ("$A" : Text) := by
  have single : ∀ p ∈ layered.entries "q.sql", ∀ q ∈ layered.entries "q.sql", p.2 = q.2 → p.1 = q.1 := by
    decide
  obtain ⟨_, _, _, back, _⟩ := last_entry_counts layered "q.sql"
  exact ⟨by decide, by decide, single, back single "$A" (by decide)⟩

end SqlMigration.Macros
