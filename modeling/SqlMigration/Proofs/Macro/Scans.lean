import Mathlib.Data.List.Find
import SqlMigration.Proofs.Macro.SinglePass

/-!
# The rule by which a text is scanned

At each place the first rule whose key stands there is used. An empty key may be
used where another key has just ended, but not twice at one place. Expansion
follows this rule, and there is no other way to follow it. Beyond a character
that no key contains the scan goes on as if the text began there. Rules of which
no two can be used at one place may come in any order.
-/

set_option autoImplicit false

namespace SqlMigration

namespace Expansion

/-- The first rule whose key stands at the start of a text. If an empty key has been used there already, its
key is not empty. -/
def usable? (rules : List Rule) (used : Bool) (s : List Code) : Option Rule :=
  rules.find? (fun r => !(used && r.1.isEmpty) && r.1.isPrefixOf s)

/-- The segments of a text by the rule. The flag tells whether an empty key has just been used. -/
inductive Scan (rules : List Rule) : Bool → List Code → List Segment → Prop where
  | done {used : Bool} (stop : usable? rules used [] = none) : Scan rules used [] []
  | keep {used : Bool} {c : Code} {cs : List Code} {gs : List Segment}
      (stop : usable? rules used (c :: cs) = none) (rest : Scan rules false cs gs) :
      Scan rules used (c :: cs) (.kept c :: gs)
  | use {used : Bool} {s : List Code} {r : Rule} {gs : List Segment}
      (found : usable? rules used s = some r)
      (rest : Scan rules r.1.isEmpty (s.drop r.1.length) gs) :
      Scan rules used s (.replaced r :: gs)

theorem usable?_false (rules : List Rule) (s : List Code) : usable? rules false s = first? rules s := rfl

theorem usable?_true (rules : List Rule) (s : List Code) :
    usable? rules true s = firstNonempty? rules s := rfl

theorem front_of_usable? {rules : List Rule} {used : Bool} {s : List Code} {r : Rule}
    (h : usable? rules used s = some r) : r.1 <+: s := by
  have fits := List.find?_some h
  rw [Bool.and_eq_true, List.isPrefixOf_iff_prefix] at fits
  exact fits.2

/-! ### Expansion follows the rule -/

theorem place_cases (rules : List Rule) (s : List Code) :
    (∃ v, usable? rules false s = some ([], v) ∧ blankSegments rules s = [.replaced ([], v)] ∧
      (atPlace rules s).2 = usable? rules true s) ∨
      (blankSegments rules s = [] ∧ (atPlace rules s).2 = usable? rules false s) := by
  rw [usable?_false, usable?_true]
  unfold blankSegments atPlace
  cases first? rules s with
  | none => exact Or.inr ⟨rfl, rfl⟩
  | some r =>
    obtain ⟨key, v⟩ := r
    cases key with
    | nil => exact Or.inl ⟨v, rfl, rfl, rfl⟩
    | cons c cs => exact Or.inr ⟨rfl, rfl⟩

theorem Scan.of_place {rules : List Rule} {s : List Code} {gs : List Segment}
    (rest : ∀ used, (atPlace rules s).2 = usable? rules used s → Scan rules used s gs) :
    Scan rules false s (blankSegments rules s ++ gs) := by
  rcases place_cases rules s with ⟨v, first, blank, next⟩ | ⟨blank, next⟩
  · rw [blank]
    exact .use first (rest true next)
  · rw [blank]
    exact rest false next

theorem atPlace_nil (rules : List Rule) : (atPlace rules []).2 = none := by
  by_contra h
  obtain ⟨r, hr⟩ := Option.ne_none_iff_exists'.mp h
  obtain ⟨-, nonempty, short⟩ := atPlace_rule hr
  exact nonempty (List.prefix_nil.mp short)

theorem scan_segmentsFrom (rules : List Rule) {skip : Nat} {s : List Code} (h : skip ≤ s.length) :
    Scan rules false (s.drop skip) (segmentsFrom rules skip s) := by
  induction s generalizing skip with
  | nil =>
    obtain rfl := Nat.le_zero.mp h
    rw [segmentsFrom, if_pos rfl, List.drop_nil, ← List.append_nil (blankSegments rules [])]
    refine Scan.of_place (fun used next => .done ?_)
    rw [← next, atPlace_nil]
  | cons c cs ih =>
    cases skip with
    | succ k => exact ih (Nat.le_of_succ_le_succ h)
    | zero =>
      rw [segmentsFrom, List.drop_zero]
      refine Scan.of_place (fun used next => ?_)
      cases hr : (atPlace rules (c :: cs)).2 with
      | none =>
        rw [hr] at next
        exact .keep next.symm (ih (Nat.zero_le _))
      | some r =>
        obtain ⟨-, nonempty, front⟩ := atPlace_rule hr
        rw [hr] at next
        -- the flag is down again, and the key ends where the rest of it has been passed over
        obtain ⟨d, ds, key⟩ := List.exists_cons_of_ne_nil nonempty
        have short := front.length_le
        rw [key, List.length_cons, List.length_cons] at short
        have rest := ih (show ds.length ≤ cs.length by omega)
        refine .use next.symm ?_
        rw [key]
        exact rest

theorem scan_segments (rules : List Rule) (s : List Code) : Scan rules false s (segments rules s) :=
  scan_segmentsFrom rules (Nat.zero_le _)

theorem Scan.unique {rules : List Rule} {used : Bool} {s : List Code} {gs hs : List Segment}
    (h : Scan rules used s gs) (h' : Scan rules used s hs) : gs = hs := by
  induction h generalizing hs with
  | done stop =>
    cases h' with
    | done _ => rfl
    | use found _ => rw [stop] at found; cases found
  | keep stop _ ih =>
    cases h' with
    | keep _ rest => rw [ih rest]
    | use found _ => rw [stop] at found; cases found
  | use found _ ih =>
    cases h' with
    | done stop => rw [stop] at found; cases found
    | keep stop _ => rw [stop] at found; cases found
    | use found' rest =>
      obtain rfl := Option.some.inj (found.symm.trans found')
      rw [ih rest]

theorem scan_iff {rules : List Rule} {s : List Code} {gs : List Segment} :
    Scan rules false s gs ↔ gs = segments rules s := by
  constructor
  · exact fun h => h.unique (scan_segments rules s)
  · rintro rfl
    exact scan_segments rules s

/-! ### Beyond a character that no key contains -/

section Separated

variable {rules : List Rule} {c : Code} (fresh : ∀ r ∈ rules, c ∉ r.1)
include fresh

theorem usable?_separated (used : Bool) (a b : List Code) :
    usable? rules used (a ++ c :: b) = usable? rules used a := by
  refine List.find?_congr (fun r hr => congrArg (!(used && r.1.isEmpty) && ·) ?_)
  rw [Bool.eq_iff_iff, List.isPrefixOf_iff_prefix, List.isPrefixOf_iff_prefix]
  refine ⟨fun here => ?_, fun here => here.trans (List.prefix_append a _)⟩
  rcases List.prefix_or_prefix_of_prefix here (List.prefix_append a _) with short | ⟨t, long⟩
  · exact short
  · -- a key that goes on beyond `a` would contain the character
    rw [← long, List.prefix_append_right_inj] at here
    cases t with
    | nil => exact ⟨[], by rw [List.append_nil, ← long, List.append_nil]⟩
    | cons d t =>
      obtain ⟨rfl, -⟩ := List.cons_prefix_cons.mp here
      exact absurd (long ▸ List.mem_append_right a List.mem_cons_self) (fresh r hr)

theorem Scan.separated {used : Bool} {a b : List Code} {gs hs : List Segment}
    (ha : Scan rules used a gs) (hb : Scan rules false b hs) :
    Scan rules used (a ++ c :: b) (gs ++ .kept c :: hs) := by
  induction ha with
  | done stop => exact .keep ((usable?_separated fresh _ [] b).trans stop) hb
  | keep stop _ ih => exact .keep ((usable?_separated fresh _ _ b).trans stop) ih
  | use found _ ih =>
    refine .use ((usable?_separated fresh _ _ b).trans found) ?_
    rw [List.drop_append_of_le_length (front_of_usable? found).length_le]
    exact ih

theorem segments_separated (a b : List Code) :
    segments rules (a ++ c :: b) = segments rules a ++ .kept c :: segments rules b :=
  (scan_iff.mp ((scan_segments rules a).separated fresh (scan_segments rules b))).symm

theorem expand_separated (a b : List Code) :
    expand rules (a ++ c :: b) = expand rules a ++ c :: expand rules b := by
  simp only [← results_segments, segments_separated fresh, results_append, results_cons, Segment.result,
    List.singleton_append]

end Separated

/-! ### Rules in another order -/

theorem Scan.congr {rules rules' : List Rule} (same : ∀ used s, usable? rules used s = usable? rules' used s)
    {used : Bool} {s : List Code} {gs : List Segment} (h : Scan rules used s gs) :
    Scan rules' used s gs := by
  induction h with
  | done stop => exact .done ((same _ _).symm.trans stop)
  | keep stop _ ih => exact .keep ((same _ _).symm.trans stop) ih
  | use found _ ih => exact .use ((same _ _).symm.trans found) ih

/-- Rules of which no key begins another one scan a text in step with the same rules in another order. -/
theorem segments_eq_of_perm {rules rules' : List Rule} (same : rules.Perm rules')
    (apart : ∀ r ∈ rules, ∀ q ∈ rules, r.1 <+: q.1 → r = q) (s : List Code) :
    segments rules s = segments rules' s := by
  refine scan_iff.mp ((scan_segments rules s).congr (fun used s => ?_))
  refine List.find?_eq_find?_of_perm same ?_
  rintro r ⟨hr, one⟩ q ⟨hq, two⟩
  simp only [Bool.and_eq_true, List.isPrefixOf_iff_prefix] at one two
  -- keys that stand at one place begin one another
  rcases List.prefix_or_prefix_of_prefix one.2 two.2 with h | h
  · exact apart r hr q hq h
  · exact (apart q hq r hr h).symm

end Expansion

namespace Macros

open Expansion

/-- The result comes from the text by putting in what the rules of a table have in place of the keys that a
scan of the text uses. -/
def ScansTo (t : Table Text Text) (text result : Text) : Prop :=
  ∃ gs, Scan (rules t) false text.toList gs ∧ result.toList = results gs

theorem scansTo_iff {t : Table Text Text} {text result : Text} :
    ScansTo t text result ↔ applyTable t text = result := by
  have whole : (applyTable t text).toList = results (segments (rules t) text.toList) := by
    rw [applyTable, Text.toList_ofList, results_segments]
  constructor
  · rintro ⟨gs, scan, same⟩
    rw [scan_iff.mp scan, ← whole] at same
    exact (Text.toList_inj.mp same).symm
  · rintro rfl
    exact ⟨_, scan_segments _ _, whole⟩

theorem applyTable_separated {t : Table Text Text} {c : Code} (fresh : ∀ k ∈ Table.keys t, c ∉ k.toList)
    (a b : Text) :
    applyTable t (a ++ Text.singleton c ++ b) =
      applyTable t a ++ Text.singleton c ++ applyTable t b := by
  have absent : ∀ r ∈ rules t, c ∉ r.1 := by
    intro r hr
    obtain ⟨p, hp, rfl⟩ := List.mem_map.mp hr
    exact fresh p.1 (List.mem_map.mpr ⟨p, hp, rfl⟩)
  apply Text.toList_inj.mp
  simp [applyTable, expand_separated absent]

/-- A character that occurs in no macro for a path divides a text into parts that are expanded each by itself,
and one that occurs in no value divides it for reversal. Both follow the rule of scanning. -/
theorem expand_piecewise (m : Macros) (path : String) (c : Code) (a b : Text) :
    ((∀ p ∈ m.entries path, c ∉ p.1.toList) →
      m.expand path (a ++ Text.singleton c ++ b) =
        m.expand path a ++ Text.singleton c ++ m.expand path b) ∧
    ((∀ p ∈ m.entries path, c ∉ p.2.toList) →
      m.unexpand path (a ++ Text.singleton c ++ b) =
        m.unexpand path a ++ Text.singleton c ++ m.unexpand path b) ∧
    ∀ text result, (ScansTo (m.merged path) text result ↔ m.expand path text = result) ∧
      (ScansTo (m.reversed.merged path) text result ↔ m.unexpand path text = result) := by
  refine ⟨fun fresh => applyTable_separated (fun k hk => ?_) a b,
    fun fresh => applyTable_separated (fun v hv => ?_) a b, fun text result => ⟨scansTo_iff, scansTo_iff⟩⟩
  · obtain ⟨p, hp, rfl⟩ := List.mem_map.mp ((m.mem_keys_merged path k).mp hk)
    exact fresh p hp
  · obtain ⟨p, hp, rfl⟩ := List.mem_map.mp hv
    exact fresh _ (mem_entries_of_mem_reversed hp)

def blankFirst : Macros := [("*.sql", [("", "_"), ("$T", "t")])]

theorem expand_piecewise_blankFirst :
    (∀ p ∈ blankFirst.entries "q.sql", .char '\n' ∉ p.1.toList) ∧
      (∀ p ∈ blankFirst.entries "q.sql", .char '\n' ∉ p.2.toList) ∧
      blankFirst.expand "q.sql" ("$T" ++ Text.singleton '\n' ++ "b") =
        blankFirst.expand "q.sql" "$T" ++ Text.singleton '\n' ++ blankFirst.expand "q.sql" "b" ∧
      blankFirst.expand "q.sql" "$T" = "_t_" ∧ blankFirst.expand "q.sql" "b" = "_b_" ∧
      blankFirst.unexpand "q.sql" ("_t_" ++ Text.singleton '\n' ++ "_b_") =
        blankFirst.unexpand "q.sql" "_t_" ++ Text.singleton '\n' ++ blankFirst.unexpand "q.sql" "_b_" := by
  have keys : ∀ p ∈ blankFirst.entries "q.sql", .char '\n' ∉ p.1.toList := by decide
  have values : ∀ p ∈ blankFirst.entries "q.sql", .char '\n' ∉ p.2.toList := by decide
  exact ⟨keys, values, (expand_piecewise blankFirst "q.sql" '\n' "$T" "b").1 keys, by decide, by decide,
    (expand_piecewise blankFirst "q.sql" '\n' "_t_" "_b_").2.1 values⟩

/-! ### Documents with the same entries -/

/-- The entries for a path give each macro one value, and no macro begins another one. -/
structure Unambiguous (m : Macros) (path : String) : Prop where
  single : ∀ p ∈ m.entries path, ∀ q ∈ m.entries path, p.1 = q.1 → p.2 = q.2
  apart : ∀ p ∈ m.entries path, ∀ q ∈ m.entries path, p.1 ≠ q.1 → ¬ p.1.toList <+: q.1.toList

theorem Unambiguous.mem_merged {m : Macros} {path : String} (h : m.Unambiguous path) {p : Text × Text} :
    p ∈ m.merged path ↔ p ∈ m.entries path := by
  refine ⟨mem_entries_of_mem_merged, fun hp => ?_⟩
  obtain ⟨q, hq, key⟩ := List.mem_map.mp ((m.mem_keys_merged path p.1).mpr (List.mem_map.mpr ⟨p, hp, rfl⟩))
  have value := h.single q (mem_entries_of_mem_merged hq) p hp key
  rwa [← Prod.ext key value]

theorem Unambiguous.rules_apart {m : Macros} {path : String} (h : m.Unambiguous path) {r q : Rule}
    (hr : r ∈ rules (m.merged path)) (hq : q ∈ rules (m.merged path)) (front : r.1 <+: q.1) : r = q := by
  obtain ⟨a, ha, rfl⟩ := List.mem_map.mp hr
  obtain ⟨b, hb, rfl⟩ := List.mem_map.mp hq
  have ha := mem_entries_of_mem_merged ha
  have hb := mem_entries_of_mem_merged hb
  have key : a.1 = b.1 := by
    by_contra differ
    exact h.apart a ha b hb differ front
  rw [Prod.ext key (h.single a ha b hb key)]

theorem Unambiguous.congr {m m' : Macros} {path : String} (h : m.Unambiguous path)
    (same : ∀ p, p ∈ m.entries path ↔ p ∈ m'.entries path) : m'.Unambiguous path where
  single p hp q hq := h.single p ((same p).mpr hp) q ((same q).mpr hq)
  apart p hp q hq := h.apart p ((same p).mpr hp) q ((same q).mpr hq)

theorem Unambiguous.merged_perm {m m' : Macros} {path : String} (h : m.Unambiguous path)
    (same : ∀ p, p ∈ m.entries path ↔ p ∈ m'.entries path) : (m.merged path).Perm (m'.merged path) := by
  refine (List.perm_ext_iff_of_nodup (List.Nodup.of_map _ (m.nodup_merged path))
    (List.Nodup.of_map _ (m'.nodup_merged path))).mpr (fun p => ?_)
  rw [h.mem_merged, (h.congr same).mem_merged, same]

/-- In what order the entries for a path stand, and under which patterns, makes no difference if they are
unambiguous. -/
theorem expand_of_same_entries {m m' : Macros} {path : String} (h : m.Unambiguous path)
    (same : ∀ p, p ∈ m.entries path ↔ p ∈ m'.entries path) (text : Text) :
    m.expand path text = m'.expand path text := by
  have permuted : (rules (m.merged path)).Perm (rules (m'.merged path)) := (h.merged_perm same).map _
  have inStep : m.pathSegments path text = m'.pathSegments path text :=
    segments_eq_of_perm permuted (fun r hr q hq => h.rules_apart hr hq) text.toList
  apply Text.toList_inj.mp
  rw [toList_expand, toList_expand, inStep]

def grouped : Macros := [("*.sql", [("AB", "1"), ("BA", "2")]), ("q*", [("C", "3")])]

def regrouped : Macros :=
  [("*", [("C", "3")]), ("x*", [("A", "4")]), ("*q.sql", [("BA", "2"), ("AB", "1")]), ("q.*", [("C", "3")])]

theorem expand_of_same_entries_regrouped :
    grouped.Unambiguous "q.sql" ∧ (∀ p, p ∈ grouped.entries "q.sql" ↔ p ∈ regrouped.entries "q.sql") ∧
      grouped.expand "q.sql" "ABABAC" = "11A3" ∧
      grouped.expand "q.sql" "ABABAC" = regrouped.expand "q.sql" "ABABAC" := by
  have clear : grouped.Unambiguous "q.sql" := ⟨by decide, by decide⟩
  have one : ∀ p ∈ grouped.entries "q.sql", p ∈ regrouped.entries "q.sql" := by decide
  have two : ∀ p ∈ regrouped.entries "q.sql", p ∈ grouped.entries "q.sql" := by decide
  have same : ∀ p, p ∈ grouped.entries "q.sql" ↔ p ∈ regrouped.entries "q.sql" := fun p => ⟨one p, two p⟩
  exact ⟨clear, same, by decide, expand_of_same_entries clear same "ABABAC"⟩

end Macros

end SqlMigration
