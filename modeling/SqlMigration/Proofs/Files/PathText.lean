import Mathlib.Data.List.Basic
import Mathlib.Data.List.TakeWhile
import SqlMigration.Files.Disk

/-!
# The text of paths

A proper name is one that an entry of a directory can have. Joining a proper
name to a path adds it to the path's parts, and splitting takes it off again.
-/

set_option autoImplicit false

namespace SqlMigration.Path

structure Proper (n : String) : Prop where
  nonempty : n ≠ ""
  noSlash : '/' ∉ n.toList
  noNul : '\x00' ∉ n.toList
  notDot : n ≠ "."
  notParent : n ≠ ".."

instance (n : String) : Decidable (Proper n) :=
  decidable_of_iff (n ≠ "" ∧ '/' ∉ n.toList ∧ '\x00' ∉ n.toList ∧ n ≠ "." ∧ n ≠ "..")
    ⟨fun ⟨a, b, c, d, e⟩ => ⟨a, b, c, d, e⟩, fun ⟨a, b, c, d, e⟩ => ⟨a, b, c, d, e⟩⟩

/-- A path to which names are joined without a doubled slash and from which they split off cleanly. -/
def Trimmed (s : String) : Prop := s.toList.all isSlash = true ∨ endsWithSlash s = false

/-- A path that ends in a name. -/
structure Named (s : String) : Prop where
  nonempty : s ≠ ""
  noFinalSlash : endsWithSlash s = false

instance (s : String) : Decidable (Named s) :=
  decidable_of_iff (s ≠ "" ∧ endsWithSlash s = false) ⟨fun ⟨a, b⟩ => ⟨a, b⟩, fun ⟨a, b⟩ => ⟨a, b⟩⟩

theorem Named.trimmed {s : String} (h : Named s) : Trimmed s := Or.inr h.noFinalSlash

theorem proper_input : Proper "input" := by decide

theorem proper_output : Proper "output" := by decide

section Proper

variable {n : String} (hn : Proper n)
include hn

theorem Proper.toList_ne_nil : n.toList ≠ [] := by
  intro h
  exact hn.nonempty (String.toList_eq_nil_iff.mp h)

theorem Proper.not_isAbsolute : isAbsolute n = false := by
  simp only [isAbsolute, decide_eq_false_iff_not]
  intro h
  exact hn.noSlash (List.mem_of_head? h)

theorem Proper.not_endsWithSlash : endsWithSlash n = false := by
  simp only [endsWithSlash, decide_eq_false_iff_not]
  intro h
  exact hn.noSlash (List.mem_of_getLast? h)

end Proper

def gap (s : String) : List Char := if s = "" ∨ endsWithSlash s = true then [] else ['/']

theorem toList_join {s n : String} (hn : isAbsolute n = false) :
    (join s n).toList = s.toList ++ gap s ++ n.toList := by
  simp only [join, hn, Bool.false_eq_true, if_false, gap]
  split <;> simp

theorem gap_eq_nil_or (s : String) :
    (gap s = [] ∧ (s.toList = [] ∨ s.toList.getLast? = some '/')) ∨
      (gap s = ['/'] ∧ s.toList ≠ [] ∧ s.toList.getLast? ≠ some '/') := by
  by_cases h : s = "" ∨ endsWithSlash s = true
  · left
    simp only [gap, h, if_true, true_and]
    simpa [endsWithSlash] using h
  · right
    simp only [gap, h, if_false, true_and]
    simpa [endsWithSlash, not_or] using h

theorem Trimmed.trimSlashes {s : String} (h : Trimmed s) :
    trimSlashes (s.toList ++ gap s) = s.toList := by
  rcases gap_eq_nil_or s with ⟨hg, hs⟩ | ⟨hg, hne, hlast⟩
  · rw [hg, List.append_nil]
    have hall : s.toList.all isSlash = true := by
      rcases h with h | h
      · exact h
      · rcases hs with hs | hs
        · rw [hs]; rfl
        · simp [endsWithSlash, hs] at h
    simp [Path.trimSlashes, hall]
  · obtain ⟨front, c, hc⟩ := List.eq_nil_or_concat s.toList |>.resolve_left hne
    rw [List.concat_eq_append] at hc
    have hslash : isSlash c = false := by
      rw [hc] at hlast
      simpa [isSlash] using hlast
    have rest : (s.toList ++ gap s).all isSlash = false := by simp [hg, hc, hslash]
    have drop : ((s.toList ++ gap s).reverse.dropWhile isSlash).reverse = s.toList := by
      rw [hg, hc, List.reverse_append, List.reverse_append]
      change (List.dropWhile isSlash ('/' :: c :: front.reverse)).reverse = _
      rw [List.dropWhile_cons_of_pos (by rfl), List.dropWhile_cons_of_neg (by simp [hslash])]
      simp
    rw [Path.trimSlashes, rest, drop]
    rfl

theorem nameChars_append {front name : List Char} (hn : '/' ∉ name)
    (hf : front = [] ∨ front.getLast? = some '/') : nameChars (front ++ name) = name := by
  have pass : ∀ c ∈ name.reverse, (!isSlash c) = true := by
    intro c hc
    have : c ≠ '/' := fun e => hn (e ▸ List.mem_reverse.mp hc)
    simp [isSlash, this]
  rw [nameChars, List.reverse_append, List.takeWhile_append_of_pos pass]
  have stop : front.reverse.takeWhile (fun c => !isSlash c) = [] := by
    rcases hf with rfl | hf
    · rfl
    · rw [← List.head?_reverse] at hf
      cases hr : front.reverse with
      | nil => rfl
      | cons c cs =>
        rw [hr] at hf
        cases hf
        rfl
  rw [stop, List.append_nil, List.reverse_reverse]

theorem split_join {s n : String} (hs : Trimmed s) (hn : Proper n) : split (join s n) = (s, n) := by
  have front : s.toList ++ gap s = [] ∨ (s.toList ++ gap s).getLast? = some '/' := by
    rcases gap_eq_nil_or s with ⟨hg, h⟩ | ⟨hg, -, -⟩
    · simpa [hg] using h
    · simp [hg]
  have name := nameChars_append hn.noSlash front
  simp only [split, toList_join hn.not_isAbsolute, name]
  rw [List.length_append, Nat.add_sub_cancel, List.take_left, hs.trimSlashes]
  simp

theorem parent_join {s n : String} (hs : Trimmed s) (hn : Proper n) : parent (join s n) = s := by
  rw [parent, split_join hs hn]

theorem name_join {s n : String} (hs : Trimmed s) (hn : Proper n) : name (join s n) = n := by
  rw [name, split_join hs hn]

theorem named_join {s n : String} (hn : Proper n) : Named (join s n) := by
  have hl := toList_join (s := s) hn.not_isAbsolute
  constructor
  · intro h
    rw [h] at hl
    exact hn.toList_ne_nil (List.append_eq_nil_iff.mp hl.symm).2
  · have := hn.not_endsWithSlash
    simp only [endsWithSlash, hl, decide_eq_false_iff_not] at this ⊢
    rwa [List.getLast?_append_of_ne_nil _ hn.toList_ne_nil]

theorem isAbsolute_join_relative {s n : String} (hn : isAbsolute n = false) :
    isAbsolute (join s n) = isAbsolute s := by
  by_cases empty : s = ""
  · rw [empty, isAbsolute, toList_join hn]
    simpa [gap, isAbsolute] using hn
  · have chars : s.toList ≠ [] := mt String.toList_eq_nil_iff.mp empty
    rw [isAbsolute, isAbsolute, toList_join hn, List.append_assoc, List.head?_append_of_ne_nil _ chars]

theorem isAbsolute_join {s n : String} (hn : Proper n) : isAbsolute (join s n) = isAbsolute s :=
  isAbsolute_join_relative hn.not_isAbsolute

/-! ### Parts -/

def partsOf (s : List Char) : List String :=
  ((s.splitOn '/').filter (fun t => !t.isEmpty)).map String.ofList

theorem partsOf_slash (a b : List Char) : partsOf (a ++ '/' :: b) = partsOf a ++ partsOf b := by
  simp [partsOf, List.splitOn_append_cons_self]

theorem partsOf_nil : partsOf [] = [] := rfl

theorem partsOf_name {n : List Char} (hn : '/' ∉ n) (hne : n ≠ []) : partsOf n = [String.ofList n] := by
  simp [partsOf, List.splitOn_eq_singleton hn, hne]

theorem partsOf_slashes {a : List Char} (h : ∀ c ∈ a, c = '/') : partsOf a = [] := by
  induction a with
  | nil => rfl
  | cons c a ih =>
    obtain rfl := h c List.mem_cons_self
    have := partsOf_slash [] a
    rw [List.nil_append, partsOf_nil, List.nil_append] at this
    rw [this]
    exact ih (fun d hd => h d (List.mem_cons_of_mem _ hd))

theorem partsOf_append {a b : List Char} (ha : a = [] ∨ a.getLast? = some '/') :
    partsOf (a ++ b) = partsOf a ++ partsOf b := by
  rcases ha with rfl | ha
  · rfl
  · obtain ⟨f, rfl⟩ := List.getLast?_eq_some_iff.mp ha
    rw [List.append_assoc, List.singleton_append, partsOf_slash, partsOf_slash, partsOf_nil,
      List.append_nil]

theorem parts_join_relative {a b : String} (hb : isAbsolute b = false) :
    parts (join a b) = parts a ++ parts b := by
  change partsOf _ = partsOf _ ++ partsOf _
  rw [toList_join hb]
  rcases gap_eq_nil_or a with ⟨hg, ha⟩ | ⟨hg, -, -⟩
  · rw [hg, List.append_nil, partsOf_append ha]
  · rw [hg, List.append_assoc, List.singleton_append, partsOf_slash]

theorem Proper.parts {n : String} (hn : Proper n) : parts n = [n] := by
  have := partsOf_name hn.noSlash hn.toList_ne_nil
  rwa [String.ofList_toList] at this

theorem parts_join {s n : String} (hn : Proper n) : parts (join s n) = parts s ++ [n] := by
  rw [parts_join_relative hn.not_isAbsolute, hn.parts]

theorem parts_noSlash {s n : String} (h : n ∈ parts s) : '/' ∉ n.toList := by
  obtain ⟨t, ht, rfl⟩ := List.mem_map.mp h
  rw [String.toList_ofList]
  have hm := (List.mem_filter.mp ht).1
  clear ht h
  generalize s.toList = l at hm
  induction l generalizing t with
  | nil => simp_all
  | cons c l ih =>
    rw [List.splitOn_cons_eq_if_modifyHead] at hm
    split at hm
    · rcases List.mem_cons.mp hm with rfl | hm
      · exact List.not_mem_nil
      · exact ih t hm
    · next hc =>
      obtain ⟨u, us, hu⟩ := List.exists_cons_of_ne_nil (List.splitOn_ne_nil '/' l)
      rw [hu, List.modifyHead_cons] at hm
      rcases List.mem_cons.mp hm with rfl | hm
      · have := ih u (by rw [hu]; exact List.mem_cons_self)
        intro hmem
        rcases List.mem_cons.mp hmem with e | hmem
        · exact hc (by simp [← e])
        · exact this hmem
      · exact ih t (by rw [hu]; exact List.mem_cons_of_mem _ hm)

/-! ### The parent of a path -/

theorem split_spec (s : String) : ∃ front, s.toList = front ++ (name s).toList ∧
    '/' ∉ (name s).toList ∧ (front = [] ∨ front.getLast? = some '/') ∧
    (parent s).toList = trimSlashes front := by
  have tail : (name s).toList = nameChars s.toList := by simp [name, split]
  have whole : s.toList =
      (s.toList.reverse.dropWhile (fun c => !isSlash c)).reverse ++ nameChars s.toList := by
    rw [nameChars, ← List.reverse_append, List.takeWhile_append_dropWhile, List.reverse_reverse]
  rw [tail]
  refine ⟨_, whole, ?_, ?_, ?_⟩
  · intro h
    have := List.mem_takeWhile_imp (List.mem_reverse.mp h)
    simp [isSlash] at this
  · cases hd : s.toList.reverse.dropWhile (fun c => !isSlash c) with
    | nil => exact Or.inl rfl
    | cons c cs =>
      right
      have first := List.head?_dropWhile_not (fun c => !isSlash c) s.toList.reverse
      rw [hd] at first
      have slash : c = '/' := by simpa [isSlash] using first
      rw [slash, List.reverse_cons, List.getLast?_concat]
  · generalize (s.toList.reverse.dropWhile (fun c => !isSlash c)).reverse = front at whole
    have size := congrArg List.length whole
    have cut : s.toList.take (s.toList.length - (nameChars s.toList).length) = front := by
      rw [size, List.length_append, Nat.add_sub_cancel]
      conv_lhs => rw [whole]
      exact List.take_left
    simp [parent, split, cut]

theorem trimSlashes_spec (s : List Char) : ∃ slashes, s = trimSlashes s ++ slashes ∧
    (∀ c ∈ slashes, c = '/') ∧ ((trimSlashes s).all isSlash = true ∧ slashes = [] ∨
      (trimSlashes s).getLast? ≠ some '/' ∧ trimSlashes s ≠ []) := by
  unfold trimSlashes
  split
  · next h => exact ⟨[], by simp, by simp, Or.inl ⟨h, rfl⟩⟩
  · next h =>
    refine ⟨(s.reverse.takeWhile isSlash).reverse, ?_, ?_, Or.inr ?_⟩
    · rw [← List.reverse_append, List.takeWhile_append_dropWhile, List.reverse_reverse]
    · intro c hc
      have := List.mem_takeWhile_imp (List.mem_reverse.mp hc)
      simpa [isSlash] using this
    · cases hd : s.reverse.dropWhile isSlash with
      | nil =>
        have all := List.dropWhile_eq_nil_iff.mp hd
        exact absurd (List.all_eq_true.mpr (fun c hc => all c (List.mem_reverse.mpr hc))) h
      | cons c cs =>
        have first := List.head?_dropWhile_not isSlash s.reverse
        rw [hd] at first
        rw [List.reverse_cons, List.getLast?_concat]
        refine ⟨?_, by simp⟩
        intro e
        cases e
        simp [isSlash] at first

theorem parts_parent (s : String) : parts s = parts (parent s) ++ parts (name s) := by
  obtain ⟨front, whole, _, last, chars⟩ := split_spec s
  obtain ⟨slashes, trimmed, all, _⟩ := trimSlashes_spec front
  have same : partsOf (trimSlashes front) = partsOf front := by
    conv_rhs => rw [trimmed]
    cases slashes with
    | nil => rw [List.append_nil]
    | cons c cs =>
      obtain rfl := all c List.mem_cons_self
      rw [partsOf_slash, partsOf_slashes (fun d hd => all d (List.mem_cons_of_mem _ hd)),
        List.append_nil]
  change partsOf _ = partsOf _ ++ partsOf _
  rw [chars, same, ← partsOf_append last, ← whole]

theorem not_isAbsolute_name (s : String) : isAbsolute (name s) = false := by
  obtain ⟨_, _, noSlash, _⟩ := split_spec s
  simp only [isAbsolute, decide_eq_false_iff_not]
  exact fun first => noSlash (List.mem_of_head? first)

theorem parts_name (s : String) : parts (name s) = if name s = "" then [] else [name s] := by
  split
  · next empty =>
    rw [empty]
    rfl
  · next hne =>
    obtain ⟨_, _, noSlash, _⟩ := split_spec s
    have := partsOf_name noSlash (mt String.toList_eq_nil_iff.mp hne)
    rwa [String.ofList_toList] at this

theorem trimmed_parent (s : String) : Trimmed (parent s) := by
  obtain ⟨front, _, _, _, chars⟩ := split_spec s
  obtain ⟨_, _, _, h⟩ := trimSlashes_spec front
  rw [Trimmed, endsWithSlash, chars]
  rcases h with ⟨h, -⟩ | ⟨h, -⟩
  · exact Or.inl h
  · right
    simpa using h

theorem mem_of_mem_parent {s : String} {c : Char} (h : c ∈ (parent s).toList) : c ∈ s.toList := by
  obtain ⟨front, whole, _, _, chars⟩ := split_spec s
  obtain ⟨slashes, trimmed, _, _⟩ := trimSlashes_spec front
  rw [whole, trimmed, ← chars]
  exact List.mem_append_left _ (List.mem_append_left _ h)

theorem mem_of_mem_name {s : String} {c : Char} (h : c ∈ (name s).toList) : c ∈ s.toList := by
  obtain ⟨front, whole, _⟩ := split_spec s
  rw [whole]
  exact List.mem_append_right _ h

theorem isAbsolute_parent (s : String) : isAbsolute (parent s) = isAbsolute s := by
  obtain ⟨front, whole, noSlash, last, chars⟩ := split_spec s
  rw [isAbsolute, isAbsolute, chars]
  by_cases hf : front = []
  · rw [hf, List.nil_append] at whole
    have : s.toList.head? ≠ some '/' := by
      rw [whole]
      exact fun e => noSlash (List.mem_of_head? e)
    simp [hf, trimSlashes, this]
  · obtain ⟨slashes, trimmed, all, h⟩ := trimSlashes_spec front
    have first : (trimSlashes front).head? = front.head? := by
      rcases h with ⟨-, none⟩ | ⟨-, some⟩
      · rw [none, List.append_nil] at trimmed
        rw [← trimmed]
      · conv_rhs => rw [trimmed]
        rw [List.head?_append_of_ne_nil _ some]
    rw [first, whole, List.head?_append_of_ne_nil _ hf]

/-! ### Several names -/

def extend (s : String) (ns : List String) : String := ns.foldl join s

@[simp]
theorem extend_nil (s : String) : extend s [] = s := rfl

theorem extend_cons (s n : String) (ns : List String) : extend s (n :: ns) = extend (join s n) ns := rfl

theorem extend_append (s : String) (ms ns : List String) :
    extend s (ms ++ ns) = extend (extend s ms) ns := by
  simp [extend]

theorem extend_concat (s : String) (ns : List String) (n : String) :
    extend s (ns ++ [n]) = join (extend s ns) n := by
  simp [extend]

def AllProper (ns : List String) : Prop := ∀ n ∈ ns, Proper n

instance (ns : List String) : Decidable (AllProper ns) := inferInstanceAs (Decidable (∀ n ∈ ns, Proper n))

theorem AllProper.append {ms ns : List String} (hm : AllProper ms) (hn : AllProper ns) :
    AllProper (ms ++ ns) := by
  intro n h
  exact (List.mem_append.mp h).elim (hm n) (hn n)

theorem Proper.single {n : String} (hn : Proper n) : AllProper [n] :=
  fun _ hm => List.mem_singleton.mp hm ▸ hn

theorem AllProper.concat {ns : List String} {n : String} (h : AllProper ns) (hn : Proper n) :
    AllProper (ns ++ [n]) :=
  h.append hn.single

theorem AllProper.left {ms ns : List String} (h : AllProper (ms ++ ns)) : AllProper ms :=
  fun n hn => h n (List.mem_append_left _ hn)

theorem AllProper.right {ms ns : List String} (h : AllProper (ms ++ ns)) : AllProper ns :=
  fun n hn => h n (List.mem_append_right _ hn)

theorem AllProper.head {n : String} {ns : List String} (h : AllProper (n :: ns)) : Proper n :=
  h n List.mem_cons_self

theorem AllProper.tail {n : String} {ns : List String} (h : AllProper (n :: ns)) : AllProper ns :=
  fun m hm => h m (List.mem_cons_of_mem _ hm)

theorem AllProper.last {n : String} {ns : List String} (h : AllProper (ns ++ [n])) : Proper n :=
  h n (List.mem_append_right _ List.mem_cons_self)

theorem parts_extend {s : String} {ns : List String} (h : AllProper ns) :
    parts (extend s ns) = parts s ++ ns := by
  induction ns generalizing s with
  | nil => simp
  | cons n ns ih => rw [extend_cons, ih h.tail, parts_join h.head, List.append_assoc]; rfl

theorem extend_inj {s : String} {ms ns : List String} (hm : AllProper ms) (hn : AllProper ns)
    (h : extend s ms = extend s ns) : ms = ns := by
  have key := congrArg parts h
  rw [parts_extend hm, parts_extend hn] at key
  exact List.append_cancel_left key

theorem isAbsolute_extend {s : String} {ns : List String} (h : AllProper ns) :
    isAbsolute (extend s ns) = isAbsolute s := by
  induction ns generalizing s with
  | nil => rfl
  | cons n ns ih => rw [extend_cons, ih h.tail, isAbsolute_join h.head]

theorem named_extend {s : String} {ns : List String} (h : AllProper ns) (hne : ns ≠ []) :
    Named (extend s ns) := by
  obtain ⟨ms, n, rfl⟩ := List.eq_nil_or_concat ns |>.resolve_left hne
  rw [List.concat_eq_append] at h ⊢
  rw [extend_concat]
  exact named_join h.last

theorem Named.extend {s : String} (hs : Named s) {ns : List String} (h : AllProper ns) :
    Named (extend s ns) := by
  by_cases hne : ns = []
  · rwa [hne]
  · exact named_extend h hne

theorem extend_ne_empty {s : String} (hs : s ≠ "") {ns : List String} (h : AllProper ns) :
    extend s ns ≠ "" := by
  by_cases hne : ns = []
  · rwa [hne]
  · exact (named_extend h hne).nonempty

theorem Trimmed.extend {s : String} (hs : Trimmed s) {ns : List String} (h : AllProper ns) :
    Trimmed (Path.extend s ns) := by
  by_cases hne : ns = []
  · rwa [hne]
  · exact (named_extend h hne).trimmed

theorem name_extend {s : String} (hs : Trimmed s) {ns : List String} (hns : AllProper ns) {n : String}
    (hn : Proper n) : name (extend s (ns ++ [n])) = n := by
  rw [extend_concat, name_join (hs.extend hns) hn]

def Below (top s : String) : Prop := ∃ ns, AllProper ns ∧ s = extend top ns

theorem Below.refl (top : String) : Below top top :=
  ⟨[], (fun _ h => nomatch h), (extend_nil top).symm⟩

theorem Below.join {top s n : String} (h : Below top s) (hn : Proper n) : Below top (join s n) := by
  obtain ⟨ns, hns, rfl⟩ := h
  exact ⟨ns ++ [n], hns.concat hn, (extend_concat _ _ _).symm⟩

end SqlMigration.Path
