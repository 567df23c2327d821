import Mathlib.Data.List.Induction
import SqlMigration.Proofs.Files.PathText

/-!
# Names joined by slashes

The names below a directory, joined by slashes, are what is left of a path after
the directory's own path and a slash have been cut off, and joining them to the
directory again gives the path back.
-/

set_option autoImplicit false

namespace SqlMigration.Path

def joined (ns : List String) : String := "/".intercalate ns

@[simp]
theorem joined_nil : joined [] = "" := rfl

theorem joined_concat {ns : List String} (hne : ns ≠ []) (n : String) :
    joined (ns ++ [n]) = joined ns ++ "/" ++ n := by
  rw [joined, String.intercalate_append_of_ne_nil hne (by simp), String.intercalate_singleton]
  rfl

theorem Named.join_eq {s n : String} (hs : Named s) (hn : isAbsolute n = false) :
    join s n = s ++ "/" ++ n := by
  simp [join, hn, hs.nonempty, hs.noFinalSlash]

theorem Named.gap_eq {s : String} (hs : Named s) : gap s = ['/'] := by
  simp [gap, hs.nonempty, hs.noFinalSlash]

theorem gap_join {a b : String} (hb : b ≠ "") (relative : isAbsolute b = false) :
    gap (join a b) = gap b := by
  have chars : b.toList ≠ [] := mt String.toList_eq_nil_iff.mp hb
  have ends : endsWithSlash (join a b) = endsWithSlash b := by
    rw [endsWithSlash, endsWithSlash, toList_join relative, List.getLast?_append_of_ne_nil _ chars]
  have ne : join a b ≠ "" := by
    intro e
    have := congrArg String.toList e
    rw [toList_join relative] at this
    exact chars (List.append_eq_nil_iff.mp this).2
  simp only [gap, ends, hb, ne, false_or]

theorem join_assoc {a b n : String} (hb : b ≠ "") (relative : isAbsolute b = false) (hn : Proper n) :
    join (join a b) n = join a (join b n) := by
  apply String.toList_inj.mp
  have whole : isAbsolute (join b n) = false := by rw [isAbsolute_join hn, relative]
  rw [toList_join hn.not_isAbsolute, gap_join hb relative, toList_join relative, toList_join whole,
    toList_join hn.not_isAbsolute]
  simp only [List.append_assoc]

theorem not_isAbsolute_joined {ns : List String} (h : AllProper ns) :
    isAbsolute (joined ns) = false := by
  cases ns with
  | nil => rfl
  | cons n ns =>
    have hn := h.head
    have hne := hn.toList_ne_nil
    have key := hn.not_isAbsolute
    simp only [isAbsolute, decide_eq_false_iff_not] at key ⊢
    cases ns with
    | nil => rwa [joined, String.intercalate_singleton]
    | cons m ms =>
      rw [joined, String.intercalate_cons_cons]
      simp only [String.toList_append, List.append_assoc]
      rwa [List.head?_append_of_ne_nil _ hne]

theorem join_joined {s : String} {ns : List String} (h : AllProper ns) (hne : ns ≠ []) :
    join s (joined ns) = extend s ns := by
  induction ns using List.reverseRecOn with
  | nil => exact absurd rfl hne
  | append_singleton ns n ih =>
    by_cases hn : ns = []
    · subst hn
      rfl
    · have hs := h.left
      rw [extend_concat, ← ih hs hn, joined_concat hn]
      have named : Named (join s (joined ns)) := by
        rw [ih hs hn]
        exact named_extend hs hn
      rw [named.join_eq h.last.not_isAbsolute]
      apply String.toList_inj.mp
      have hrel : isAbsolute (joined ns ++ "/" ++ n) = false := by
        rw [← joined_concat hn]
        exact not_isAbsolute_joined h
      rw [toList_join hrel]
      simp [toList_join (not_isAbsolute_joined hs)]

theorem join_joined_name {s n : String} {ns : List String} (h : AllProper ns) (hn : Proper n) :
    join (join s (joined ns)) n = extend s (ns ++ [n]) := by
  by_cases hne : ns = []
  · subst hne
    apply String.toList_inj.mp
    have blank : (join s (joined [])).toList = s.toList ++ gap s := by
      rw [toList_join (by rfl)]
      simp
    have last : gap (join s (joined [])) = [] := by
      rcases gap_eq_nil_or s with ⟨hg, hs⟩ | ⟨hg, -, -⟩
      · rw [gap, if_pos]
        rw [← String.toList_eq_nil_iff, endsWithSlash, blank, hg, List.append_nil]
        simpa using hs
      · rw [gap, if_pos]
        right
        rw [endsWithSlash, blank, hg]
        simp
    rw [toList_join hn.not_isAbsolute, blank, last, List.nil_append, extend_cons, extend_nil,
      toList_join hn.not_isAbsolute, List.append_nil]
  · rw [join_joined h hne, extend_concat]

theorem Named.extend_eq {s : String} (hs : Named s) {ns : List String} (h : AllProper ns)
    (hne : ns ≠ []) : Path.extend s ns = s ++ "/" ++ joined ns := by
  rw [← join_joined h hne, hs.join_eq (not_isAbsolute_joined h)]

theorem Named.drop_extend {s : String} (hs : Named s) {ns : List String} (h : AllProper ns) :
    dropChars (Path.extend s ns) (s.length + 1) = joined ns := by
  apply String.toList_inj.mp
  by_cases hne : ns = []
  · subst hne
    have hl : s.toList.length ≤ s.length + 1 := by rw [String.length_toList]; omega
    simpa [dropChars] using hl
  · rw [hs.extend_eq h hne, dropChars, String.toList_ofList, String.toList_append,
      String.toList_append]
    have len : s.length + 1 = (s.toList ++ "/".toList).length := by simp [String.length_toList]
    rw [len, List.drop_left]

theorem parts_joined {ns : List String} (h : AllProper ns) : parts (joined ns) = ns := by
  by_cases hne : ns = []
  · subst hne
    rfl
  · have key := parts_join_relative (a := "") (not_isAbsolute_joined h)
    rw [join_joined h hne, parts_extend h] at key
    simpa using key.symm

/-! ### Lengths in bytes -/

open Files

theorem byteLength_append (a b : String) : byteLength (a ++ b) = byteLength a + byteLength b := by
  simp [byteLength, Utf8.encode]

theorem byteLength_join {s n : String} (hn : isAbsolute n = false) :
    byteLength (join s n) = byteLength s + (gap s).length + byteLength n := by
  have hg : (Utf8.encode (gap s)).length = (gap s).length := by
    unfold gap
    split <;> rfl
  simp only [byteLength, toList_join hn, Utf8.encode, List.flatMap_append, List.length_append] at hg ⊢
  rw [hg]

theorem byteLength_le_extend {s : String} {ns : List String} (h : AllProper ns) :
    byteLength s ≤ byteLength (extend s ns) := by
  induction ns generalizing s with
  | nil => exact Nat.le_refl _
  | cons n ns ih =>
    have := byteLength_join (s := s) h.head.not_isAbsolute
    have := ih (s := join s n) h.tail
    rw [extend_cons]
    omega

theorem byteLength_pos {n : String} (hn : n ≠ "") : 0 < byteLength n := by
  obtain ⟨c, cs, hc⟩ := List.exists_cons_of_ne_nil (mt String.toList_eq_nil_iff.mp hn)
  have : 0 < (String.utf8EncodeChar c).length := by
    rw [String.length_utf8EncodeChar]
    exact Char.utf8Size_pos c
  simp only [byteLength, Utf8.encode, hc, List.flatMap_cons, List.length_append]
  omega

theorem Proper.byteLength_pos {n : String} (hn : Proper n) : 0 < byteLength n :=
  Path.byteLength_pos hn.nonempty

theorem length_add_byteLength_le {s : String} {ns : List String} (h : AllProper ns) :
    byteLength s + ns.length ≤ byteLength (extend s ns) := by
  induction ns generalizing s with
  | nil => exact Nat.le_refl _
  | cons n ns ih =>
    have hj := byteLength_join (s := s) h.head.not_isAbsolute
    have hp := h.head.byteLength_pos
    have := ih (s := join s n) h.tail
    rw [extend_cons, List.length_cons]
    omega

end SqlMigration.Path

namespace SqlMigration.Files

/-- A path that the file system takes: it has no null character, and neither the path nor a name in
it is too long. -/
structure Fits (path : String) : Prop where
  noNul : '\x00' ∉ path.toList
  short : byteLength path < pathLimit
  shortNames : ∀ n ∈ Path.parts path, byteLength n ≤ nameLimit

instance (path : String) : Decidable (Fits path) :=
  decidable_of_iff
    ('\x00' ∉ path.toList ∧ byteLength path < pathLimit ∧
      ∀ n ∈ Path.parts path, byteLength n ≤ nameLimit)
    ⟨fun ⟨a, b, c⟩ => ⟨a, b, c⟩, fun ⟨a, b, c⟩ => ⟨a, b, c⟩⟩

open SqlMigration.Path

theorem nul_mem_join {s n : String} (hn : Proper n) :
    '\x00' ∈ (join s n).toList ↔ '\x00' ∈ s.toList := by
  have hg : '\x00' ∉ gap s := by
    unfold gap
    split <;> simp
  rw [toList_join hn.not_isAbsolute, List.mem_append, List.mem_append]
  exact ⟨fun h => (h.resolve_right hn.noNul).resolve_right hg, fun h => Or.inl (Or.inl h)⟩

theorem nul_mem_extend {s : String} {ns : List String} (h : AllProper ns) :
    '\x00' ∈ (extend s ns).toList ↔ '\x00' ∈ s.toList := by
  induction ns generalizing s with
  | nil => exact Iff.rfl
  | cons n ns ih => rw [extend_cons, ih h.tail, nul_mem_join h.head]

theorem Fits.of_extend {s : String} {ns : List String} (h : AllProper ns) (hf : Fits (extend s ns)) :
    Fits s where
  noNul := fun hm => hf.noNul ((nul_mem_extend h).mpr hm)
  short := Nat.lt_of_le_of_lt (byteLength_le_extend h) hf.short
  shortNames := by
    intro n hn
    refine hf.shortNames n ?_
    rw [parts_extend h]
    exact List.mem_append_left _ hn

theorem Fits.names {s : String} {ns : List String} (h : AllProper ns) (hf : Fits (extend s ns)) :
    ∀ n ∈ ns, byteLength n ≤ nameLimit := by
  intro n hn
  refine hf.shortNames n ?_
  rw [parts_extend h]
  exact List.mem_append_right _ hn

theorem Fits.of_append {s : String} {ms ns : List String} (h : AllProper ns)
    (hf : Fits (extend s (ms ++ ns))) : Fits (extend s ms) := by
  rw [extend_append] at hf
  exact hf.of_extend h

end SqlMigration.Files
