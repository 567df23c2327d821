import SqlMigration.Proofs.Text.Codes
import SqlMigration.Macro.Macros
import SqlMigration.Proofs.Tables

/-!
# Merged tables

The table for a path holds entries of the patterns that fit the path and of no
others. The table for reversal is made of the same entries with keys and values
exchanged, those among them that were replaced on the way forward.
-/

set_option autoImplicit false

namespace SqlMigration.Macros

def entries (m : Macros) (path : String) : List (Text × Text) :=
  (m.filter (fun p => globMatches p.1 path)).flatMap (·.2)

theorem merged_eq_ofPairs (m : Macros) (path : String) :
    m.merged path = Table.ofPairs (m.entries path) := by
  have step : ∀ (l : Macros) (t : Table Text Text),
      l.foldl (fun t p => t.putAll p.2) t = t.putAll (l.flatMap (·.2)) := by
    intro l
    induction l with
    | nil => intro t; rfl
    | cons p l ih =>
      intro t
      rw [List.foldl_cons, ih, List.flatMap_cons, Table.putAll_append]
  exact step _ []

theorem mem_entries_of_mem_merged {m : Macros} {path : String} {p : Text × Text}
    (h : p ∈ m.merged path) : p ∈ m.entries path := by
  rw [merged_eq_ofPairs] at h
  exact (Table.mem_putAll h).resolve_left List.not_mem_nil

theorem mem_keys_merged (m : Macros) (path : String) (key : Text) :
    key ∈ Table.keys (m.merged path) ↔ key ∈ (m.entries path).map (·.1) := by
  rw [merged_eq_ofPairs, Table.ofPairs, Table.mem_keys_putAll]
  simp [Table.keys]

theorem entries_reversed (m : Macros) (path : String) :
    m.reversed.entries path = (m.filter (fun p => globMatches p.1 path)).flatMap (swap ·.2) := by
  simp only [entries, reversed, List.filter_map, List.flatMap_map]
  rfl

theorem mem_swap {t : Table Text Text} {p : Text × Text} (h : p ∈ swap t) :
    (p.2, p.1) ∈ t := by
  have hm := (Table.mem_putAll h).resolve_left List.not_mem_nil
  obtain ⟨q, hq, rfl⟩ := List.mem_map.mp hm
  exact hq

theorem mem_keys_swap {t : Table Text Text} {p : Text × Text} (h : p ∈ t) :
    p.2 ∈ Table.keys (swap t) := by
  rw [swap, Table.ofPairs, Table.mem_keys_putAll]
  exact Or.inr (List.mem_map.mpr ⟨(p.2, p.1), List.mem_map.mpr ⟨p, h, rfl⟩, rfl⟩)

theorem mem_entries_of_mem_reversed {m : Macros} {path : String} {p : Text × Text}
    (h : p ∈ m.reversed.merged path) : (p.2, p.1) ∈ m.entries path := by
  have he := mem_entries_of_mem_merged h
  rw [entries_reversed] at he
  obtain ⟨g, hg, hp⟩ := List.mem_flatMap.mp he
  exact List.mem_flatMap.mpr ⟨g, hg, mem_swap hp⟩

theorem value_mem_keys_reversed {m : Macros} {path : String} {p : Text × Text}
    (h : p ∈ m.entries path) : p.2 ∈ Table.keys (m.reversed.merged path) := by
  obtain ⟨g, hg, hp⟩ := List.mem_flatMap.mp h
  rw [mem_keys_merged, entries_reversed]
  obtain ⟨q, hq, hv⟩ := List.mem_map.mp (mem_keys_swap hp)
  exact List.mem_map.mpr ⟨q, List.mem_flatMap.mpr ⟨g, hg, hq⟩, hv⟩

theorem mem_rules {t : Table Text Text} {r : Expansion.Rule} :
    r ∈ rules t ↔ (Text.ofList r.1, Text.ofList r.2) ∈ t := by
  constructor
  · intro h
    obtain ⟨p, hp, rfl⟩ := List.mem_map.mp h
    simpa using hp
  · intro h
    exact List.mem_map.mpr ⟨_, h, by simp⟩

end SqlMigration.Macros
