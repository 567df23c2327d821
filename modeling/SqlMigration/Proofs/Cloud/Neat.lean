import SqlMigration.Proofs.Cloud.Service

/-!
# The names of a job's objects

Below the path of a job the bucket holds only objects that are named like files
of its two directories: those that were uploaded, their copies, and what the
service adds, if it names its objects like files too.
-/

set_option autoImplicit false

namespace SqlMigration

open SqlMigration.Path

/-- Below a path all names are those of files in the two directories of a job. -/
def Storage.NeatNames (path : String) (os : Table String Bytes) : Prop :=
  ∀ name ∈ Table.keys os, startsWith path name = true →
    ∃ q, AllProper q ∧ q ≠ [] ∧
      (name = extend (join path "input") q ∨ name = extend (join path "output") q)

def Storage.Neat (bucket path : String) (s : Storage) : Prop := NeatNames path (s.objects bucket)

/-- The objects that a service adds are named like files below the target path. -/
def Converter.PlainExtras (c : Converter) : Prop :=
  ∀ e ∈ c.extra, ∃ q, AllProper q ∧ q ≠ [] ∧ e.1 = "/" ++ joined q

theorem Storage.NeatNames.put {path : String} {os : Table String Bytes} (h : NeatNames path os)
    {q : Place} (hq : AllProper q) (hne : q ≠ []) (content : Bytes) :
    NeatNames path (Table.put os (extend (join path "input") q) content) := by
  intro name hname below
  rw [Table.keys_put] at hname
  split at hname
  · exact h name hname below
  · rcases List.mem_append.mp hname with hname | hname
    · exact h name hname below
    · exact ⟨q, hq, hne, Or.inl (List.mem_singleton.mp hname)⟩

theorem Storage.Neat.store {bucket path : String} {s : Storage} (h : s.Neat bucket path) {q : Place}
    (hq : AllProper q) (hne : q ≠ []) (content : Bytes) :
    (s.store bucket (extend (join path "input") q) content).Neat bucket path := by
  rw [Neat, objects_store, if_pos rfl]
  exact NeatNames.put h hq hne content

theorem Storage.Neat.createBucket {bucket path : String} {s : Storage} (h : s.Neat bucket path)
    (b : String) : (s.createBucket b).Neat bucket path := by
  intro name hname
  rw [objects, Storage.createBucket, Table.get?_put] at hname
  split at hname
  · cases hname
  · exact h name hname

section Sides

variable {path name : String} {os : Table String Bytes} (h : Storage.NeatNames path os)
  (there : name ∈ Table.keys os)
include h there

theorem Storage.NeatNames.source (below : startsWith (join path "input") name = true) :
    ∃ q, AllProper q ∧ q ≠ [] ∧ name = extend (join path "input") q := by
  obtain ⟨q, hq, hne, e | e⟩ := h name there
    (startsWith_trans (Converter.startsWith_join proper_input.not_isAbsolute) below)
  · exact ⟨q, hq, hne, e⟩
  · have other := Converter.startsWith_join_apart proper_input proper_output (by decide) (by decide) below
    rw [e, startsWith_extend _ hq] at other
    cases other

theorem Storage.NeatNames.target (below : startsWith (join path "output") name = true) :
    ∃ q, AllProper q ∧ q ≠ [] ∧ name = extend (join path "output") q := by
  obtain ⟨q, hq, hne, e | e⟩ := h name there
    (startsWith_trans (Converter.startsWith_join proper_output.not_isAbsolute) below)
  · have other := Converter.startsWith_join_apart proper_output proper_input (by decide) (by decide) below
    rw [e, startsWith_extend _ hq] at other
    cases other
  · exact ⟨q, hq, hne, e⟩

end Sides

namespace Converter

open Storage

theorem mem_keys_copies (c : Converter) {src dst : String} {names : List String}
    {os : Table String Bytes} {k : String} (h : k ∈ Table.keys (names.foldl (c.copyIn src dst) os)) :
    k ∈ Table.keys os ∨ ∃ n ∈ names, k = moved src dst n := by
  induction names generalizing os with
  | nil => exact Or.inl h
  | cons n names ih =>
    rcases ih h with h | ⟨m, hm, e⟩
    · rw [copyIn, Table.keys_put] at h
      split at h
      · exact Or.inl h
      · rcases List.mem_append.mp h with h | h
        · exact Or.inl h
        · exact Or.inr ⟨n, List.mem_cons_self, List.mem_singleton.mp h⟩
    · exact Or.inr ⟨m, List.mem_cons_of_mem _ hm, e⟩

theorem neatNames_acted {c : Converter} (plain : c.PlainExtras) {path : String}
    {os : Table String Bytes} (h : NeatNames path os) :
    NeatNames path (c.acted (join path "input") (join path "output") os) := by
  intro name hname below
  rw [acted, Table.mem_keys_putAll] at hname
  rcases hname with hname | hname
  · rcases mem_keys_copies c hname with hname | ⟨n, hn, rfl⟩
    · exact h name hname below
    · obtain ⟨o, ho, rfl⟩ := List.mem_map.mp hn
      rw [List.mem_mergeSort, List.mem_filter] at ho
      have front : startsWith (join path "input") (join path "input" ++ "/") = true := by
        rw [startsWith_iff, String.toList_append]
        exact List.prefix_append _ _
      obtain ⟨q, hq, hne, e⟩ :=
        h.source (List.mem_map.mpr ⟨o, ho.1, rfl⟩) (startsWith_trans front ho.2)
      refine ⟨q, hq, hne, Or.inr ?_⟩
      rw [e, moved_extend (named_join proper_input) (named_join proper_output) hq hne]
  · obtain ⟨o, ho, rfl⟩ := List.mem_map.mp hname
    obtain ⟨e, he, rfl⟩ := List.mem_map.mp ho
    obtain ⟨q, hq, hne, text⟩ := plain e he
    refine ⟨q, hq, hne, Or.inr ?_⟩
    rw [(named_join proper_output).extend_eq hq hne, text, String.append_assoc]

end Converter

theorem Storage.Neat.act {c : Converter} (plain : c.PlainExtras) {bucket path : String}
    (hp : path ≠ "") (relative : isAbsolute path = false) {s : Storage} (h : s.Neat bucket path) :
    (c.act (join (join ("gs://" ++ bucket) path) "input")
      (join (join ("gs://" ++ bucket) path) "output") s).Neat bucket path := by
  have inBucket : ∀ n, Proper n →
      Converter.below? bucket (join (join ("gs://" ++ bucket) path) n) =
        if endsWithSlash ("gs://" ++ bucket) then none else some (join path n) := by
    intro n hn
    have relative' : isAbsolute (join path n) = false := by rw [isAbsolute_join hn, relative]
    rw [join_assoc hp relative hn, Converter.below?_join bucket relative']
  rw [Converter.act]
  generalize (Table.keys s.buckets).mergeSort Converter.textLE = buckets
  induction buckets generalizing s with
  | nil => exact h
  | cons b buckets ih =>
    refine ih ?_
    rw [Neat, Converter.objects_actOn]
    split
    · next same =>
      rw [same, inBucket "input" proper_input, inBucket "output" proper_output]
      split
      · next src dst hs hd =>
        split at hs
        · cases hs
        · next ends =>
          rw [if_neg ends] at hd
          cases hs
          cases hd
          exact Converter.neatNames_acted plain h
      · exact h
    · exact h

end SqlMigration
