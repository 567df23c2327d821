import SqlMigration.Proofs.Macro.Pattern
import SqlMigration.Proofs.Macro.RoundTrip

/-!
# Expansion as a single pass

Without an empty key there is one way only to cut a text at keys so that no key
begins in the text that is kept and each key comes before all others that stand
at its place. Expansion puts the values in the places of the keys of this cut.
A match is looked up as it stands in the search pattern, and is always found.
-/

set_option autoImplicit false

namespace SqlMigration

namespace Expansion

/-- No rule stands at a kept character, and where a key is replaced its rule is the first that stands
there. -/
def Scanned (rules : List Rule) : List Segment → Prop
  | [] => True
  | .kept c :: rest => first? rules (c :: sources rest) = none ∧ Scanned rules rest
  | .replaced r :: rest => first? rules (r.1 ++ sources rest) = some r ∧ Scanned rules rest

section Nonempty

variable {rules : List Rule} (nonempty : ∀ r ∈ rules, r.1 ≠ [])
include nonempty

theorem blankSegments_eq_nil (s : List Code) : blankSegments rules s = [] := by
  unfold blankSegments
  split
  · next v h => exact absurd rfl (nonempty _ (mem_of_first? h).1)
  · rfl

theorem atPlace_eq_first? (s : List Code) : (atPlace rules s).2 = first? rules s := by
  unfold atPlace
  split
  · next v h => exact absurd rfl (nonempty _ (mem_of_first? h).1)
  · rfl

theorem scanned_segmentsFrom (skip : Nat) (s : List Code) : Scanned rules (segmentsFrom rules skip s) := by
  induction s generalizing skip with
  | nil =>
    cases skip with
    | zero =>
      rw [segmentsFrom, if_pos rfl, blankSegments_eq_nil nonempty]
      trivial
    | succ k => trivial
  | cons c cs ih =>
    cases skip with
    | succ k => exact ih k
    | zero =>
      rw [segmentsFrom, blankSegments_eq_nil nonempty, List.nil_append, atPlace_eq_first? nonempty]
      cases h : first? rules (c :: cs) with
      | none =>
        refine ⟨?_, ih 0⟩
        rw [sources_segmentsFrom, List.drop_zero, h]
      | some r =>
        refine ⟨?_, ih _⟩
        obtain ⟨known, here⟩ := mem_of_first? h
        -- the characters that are passed over are the rest of the key
        obtain ⟨n, hn⟩ := Nat.exists_eq_add_of_lt (List.length_pos_iff.mpr (nonempty r known))
        rw [Nat.zero_add] at hn
        have whole := List.prefix_iff_eq_append.mp here
        rw [hn, List.drop_succ_cons] at whole
        rw [sources_segmentsFrom, hn, Nat.add_sub_cancel, whole, h]

end Nonempty

end Expansion

namespace Macros

open Expansion

/-- The value that is looked up for a match, by the match as it stands in the search pattern. -/
def lookUp (m : Macros) (path : String) (found : Text) : Option Text :=
  Table.get? (m.patterns path).1 (Text.ofList (Escape.escape found.toList))

theorem lookUp_eq (m : Macros) (path : String) (found : Text) :
    m.lookUp path found = Table.get? (m.merged path) found :=
  Table.get?_rename (fun _ _ => Escape.escaped_injective) (m.merged path) found

/-! ### Cuts of a text -/

/-- A text cut at keys: kept text, a key, and so on, up to the text after the last key. -/
inductive Cut where
  | last (kept : Text)
  | next (kept key : Text) (more : Cut)
  deriving DecidableEq, Repr

namespace Cut

def text : Cut → Text
  | last kept => kept
  | next kept key more => kept ++ key ++ more.text

def filled? (value : Text → Option Text) : Cut → Option Text
  | last kept => some kept
  | next kept key more => do
    let v ← value key
    let rest ← more.filled? value
    return kept ++ v ++ rest

end Cut

/-- No key begins in the kept text, when the rest stands after it. -/
def Untouched (keys : List Text) (kept rest : Text) : Prop :=
  ∀ i < kept.length, ∀ k ∈ keys, ¬ OccursAt k (kept ++ rest) i

def Foremost (keys : List Text) (key text : Text) : Prop :=
  OccursAt key text 0 ∧ ∃ before after, keys = before ++ key :: after ∧
    ∀ k ∈ before, ¬ OccursAt k text 0

/-- The cut is what a single pass over the text from left to right comes to. -/
def Cut.IsPass (keys : List Text) : Cut → Prop
  | last kept => Untouched keys kept ""
  | next kept key more => Untouched keys kept (key ++ more.text) ∧
      Foremost keys key (key ++ more.text) ∧ more.IsPass keys

/-! ### The cut that expansion makes -/

def Cut.keep (c : Code) : Cut → Cut
  | last kept => last (Text.ofList [c] ++ kept)
  | next kept key more => next (Text.ofList [c] ++ kept) key more

def Cut.ofSegments : List Segment → Cut
  | [] => last ""
  | .kept c :: rest => (ofSegments rest).keep c
  | .replaced r :: rest => next "" (Text.ofList r.1) (ofSegments rest)

def found (m : Macros) (path : String) (text : Text) : Cut := Cut.ofSegments (m.pathSegments path text)

theorem Cut.text_keep (c : Code) (cut : Cut) : (cut.keep c).text = Text.ofList [c] ++ cut.text := by
  cases cut with
  | last kept => rfl
  | next kept key more => simp only [keep, text, Text.append_assoc]

theorem Cut.text_ofSegments (gs : List Segment) : (ofSegments gs).text = Text.ofList (sources gs) := by
  induction gs with
  | nil => rfl
  | cons g gs ih =>
    cases g with
    | kept c => rw [ofSegments, text_keep, ih, ← Text.ofList_append]; rfl
    | replaced r => rw [ofSegments, text, ih, Text.empty_append, ← Text.ofList_append]; rfl

theorem Cut.filled?_keep (value : Text → Option Text) (c : Code) (cut : Cut) :
    (cut.keep c).filled? value = (cut.filled? value).map (Text.ofList [c] ++ ·) := by
  cases cut with
  | last kept => rfl
  | next kept key more =>
    simp only [keep, filled?]
    cases value key with
    | none => rfl
    | some v => cases more.filled? value <;> simp [Text.append_assoc]

theorem Cut.filled?_ofSegments {value : Text → Option Text} {gs : List Segment}
    (known : ∀ r, Segment.replaced r ∈ gs → value (Text.ofList r.1) = some (Text.ofList r.2)) :
    (ofSegments gs).filled? value = some (Text.ofList (results gs)) := by
  induction gs with
  | nil => rfl
  | cons g gs ih =>
    have rest := ih (fun r hr => known r (List.mem_cons_of_mem _ hr))
    cases g with
    | kept c =>
      rw [ofSegments, filled?_keep, rest, Option.map_some, ← Text.ofList_append]
      rfl
    | replaced r =>
      simp only [ofSegments, filled?, known r List.mem_cons_self, rest]
      rfl

/-! ### It is a pass, and the only one -/

theorem foremost_iff {keys : List Text} {key text : Text} :
    Foremost keys key text ↔ keys.find? (fun k => decide (OccursAt k text 0)) = some key := by
  rw [List.find?_eq_some_iff_append]
  simp [Foremost]

theorem find?_keys (t : Table Text Text) (text : Text) :
    (Table.keys t).find? (fun k => decide (OccursAt k text 0)) =
      (first? (rules t) text.toList).map (fun r => Text.ofList r.1) := by
  have same : ∀ k : Text, decide (OccursAt k text 0) = k.toList.isPrefixOf text.toList := by
    intro k
    rw [Bool.eq_iff_iff, decide_eq_true_eq, List.isPrefixOf_iff_prefix, OccursAt, List.drop_zero]
  rw [Table.keys, rules, first?, List.find?_map, List.find?_map, Option.map_map]
  simp only [Function.comp_def, same, Text.ofList_toList]

theorem Untouched.keep {keys : List Text} {c : Code} {kept rest : Text}
    (free : ∀ k ∈ keys, ¬ OccursAt k (Text.ofList [c] ++ (kept ++ rest)) 0)
    (h : Untouched keys kept rest) : Untouched keys (Text.ofList [c] ++ kept) rest := by
  intro i hi k hk occurs
  rw [Text.append_assoc] at occurs
  cases i with
  | zero => exact free k hk occurs
  | succ i =>
    rw [Text.length_append, Text.length_ofList, List.length_singleton] at hi
    refine h i (by omega) k hk ?_
    rwa [OccursAt, Text.toList_append, Text.toList_ofList, List.singleton_append,
      List.drop_succ_cons] at occurs

theorem Cut.IsPass.keep {keys : List Text} {c : Code} {cut : Cut}
    (free : ∀ k ∈ keys, ¬ OccursAt k (Text.ofList [c] ++ cut.text) 0) (h : cut.IsPass keys) :
    (cut.keep c).IsPass keys := by
  cases cut with
  | last kept => exact Untouched.keep (by rwa [Text.append_empty]) h
  | next kept key more =>
    obtain ⟨untouched, rest⟩ := h
    rw [text, Text.append_assoc] at free
    exact ⟨untouched.keep free, rest⟩

theorem isPass_ofSegments {t : Table Text Text} {gs : List Segment} (h : Scanned (rules t) gs) :
    (Cut.ofSegments gs).IsPass (Table.keys t) := by
  have none : ∀ rest, Untouched (Table.keys t) "" rest := fun rest i hi => absurd hi (by simp)
  induction gs with
  | nil => exact none ""
  | cons g gs ih =>
    cases g with
    | kept c =>
      refine Cut.IsPass.keep (fun k hk occurs => ?_) (ih h.2)
      have nothing := find?_keys t (Text.ofList (c :: sources gs))
      rw [Text.toList_ofList, h.1, Option.map_none, List.find?_eq_none] at nothing
      rw [Cut.text_ofSegments, ← Text.ofList_append] at occurs
      exact nothing k hk (decide_eq_true occurs)
    | replaced r =>
      refine ⟨none _, ?_, ih h.2⟩
      rw [Cut.text_ofSegments, ← Text.ofList_append, foremost_iff, find?_keys, Text.toList_ofList,
        h.1, Option.map_some]

theorem Untouched.length_le {keys : List Text} {kept rest before key after : Text}
    (h : Untouched keys kept rest) (hk : key ∈ keys)
    (same : kept ++ rest = before ++ (key ++ after)) : kept.length ≤ before.length := by
  by_contra short
  refine h before.length (by omega) key hk ?_
  rw [OccursAt, same, Text.toList_append, ← Text.length_toList, List.drop_left, Text.toList_append]
  exact List.prefix_append _ _

theorem Foremost.mem {keys : List Text} {key text : Text} (h : Foremost keys key text) :
    key ∈ keys :=
  List.mem_of_find?_eq_some (foremost_iff.mp h)

theorem Foremost.unique {keys : List Text} {key key' text : Text} (h : Foremost keys key text)
    (h' : Foremost keys key' text) : key = key' :=
  Option.some.inj ((foremost_iff.mp h).symm.trans (foremost_iff.mp h'))

theorem Cut.IsPass.last_ne_next {keys : List Text} (nonempty : ("" : Text) ∉ keys) {kept kept' key : Text}
    {more : Cut} (h : (last kept).IsPass keys) (h' : (next kept' key more).IsPass keys) :
    kept ≠ kept' ++ key ++ more.text := by
  intro same
  have short : kept.length ≤ kept'.length :=
    h.length_le h'.2.1.mem (by rw [Text.append_empty, same, Text.append_assoc])
  have long := congrArg Text.length same
  rw [Text.length_append, Text.length_append] at long
  have blank : key = "" := Text.length_eq_zero_iff.mp (by omega)
  exact nonempty (blank ▸ h'.2.1.mem)

theorem Cut.IsPass.unique {keys : List Text} (nonempty : ("" : Text) ∉ keys) {c c' : Cut}
    (h : c.IsPass keys) (h' : c'.IsPass keys) (same : c.text = c'.text) : c = c' := by
  induction c generalizing c' with
  | last kept =>
    cases c' with
    | last kept' => exact congrArg last same
    | next kept' key' more' => exact absurd same (h.last_ne_next nonempty h')
  | next kept key more ih =>
    cases c' with
    | last kept' => exact absurd same.symm (h'.last_ne_next nonempty h)
    | next kept' key' more' =>
      simp only [text, Text.append_assoc] at same
      -- neither key begins inside the other kept text
      have one := h.1.length_le h'.2.1.mem same
      have two := h'.1.length_le h.2.1.mem same.symm
      have equal : kept.toList.length = kept'.toList.length := by
        rw [Text.length_toList, Text.length_toList]
        omega
      have chars := congrArg Text.toList same
      rw [Text.toList_append, Text.toList_append (s := kept')] at chars
      obtain ⟨front, back⟩ := List.append_inj chars equal
      obtain rfl := Text.toList_inj.mp front
      have back := Text.toList_inj.mp back
      obtain rfl : key = key' := h.2.1.unique (back ▸ h'.2.1)
      rw [ih h.2.2 h'.2.2 (Text.append_right_inj _ |>.mp back)]

/-- The result comes from the text in a single pass: there is one cut at the keys of the table that is a
pass, and with the values of the table in the places of the keys it is the result. -/
structure SinglePass (t : Table Text Text) (text result : Text) : Prop where
  pass : ∃! c : Cut, c.text = text ∧ c.IsPass (Table.keys t)
  filled : ∀ c : Cut, c.text = text → c.IsPass (Table.keys t) → c.filled? (Table.get? t) = some result

section Found

variable (m : Macros) (path : String) (text : Text)

theorem text_found : (m.found path text).text = text := by
  rw [found, Cut.text_ofSegments, pathSegments, sources_segments, Text.ofList_toList]

theorem nodup_merged : (Table.keys (m.merged path)).Nodup := by
  rw [merged_eq_ofPairs]
  exact Table.nodup_putAll (t := []) List.nodup_nil _

theorem filled?_found :
    (m.found path text).filled? (Table.get? (m.merged path)) = some (m.expand path text) := by
  rw [found, Cut.filled?_ofSegments, ← toList_expand, Text.ofList_toList]
  intro r hr
  exact Table.get?_of_mem (m.nodup_merged path) (mem_rules.mp (replaced_mem_rules hr))

variable {m path} in
theorem isPass_found (nonempty : ("" : Text) ∉ Table.keys (m.merged path)) :
    (m.found path text).IsPass (Table.keys (m.merged path)) := by
  refine isPass_ofSegments (scanned_segmentsFrom (fun r hr he => nonempty ?_) 0 text.toList)
  have known := mem_rules.mp hr
  rw [he] at known
  exact List.mem_map.mpr ⟨_, known, rfl⟩

variable {m path} in
theorem singlePass_expand (nonempty : ("" : Text) ∉ Table.keys (m.merged path)) :
    SinglePass (m.merged path) text (m.expand path text) := by
  have only : ∀ c : Cut, c.text = text → c.IsPass (Table.keys (m.merged path)) →
      c = m.found path text := by
    intro c same pass
    exact pass.unique nonempty (isPass_found text nonempty) (same.trans (m.text_found path text).symm)
  refine ⟨⟨m.found path text, ⟨m.text_found path text, isPass_found text nonempty⟩, ?_⟩, ?_⟩
  · rintro c ⟨same, pass⟩
    exact only c same pass
  · intro c same pass
    rw [only c same pass, filled?_found]

end Found

/-- Expansion and reversal each make a single pass over the text, if their table has no empty key. In
any case each match that they find is found again by its escaped form, with the value that is put in. -/
theorem expand_single_pass (m : Macros) (path : String) (text : Text) :
    (("" : Text) ∉ Table.keys (m.merged path) → SinglePass (m.merged path) text (m.expand path text)) ∧
      (("" : Text) ∉ Table.keys (m.reversed.merged path) →
        SinglePass (m.reversed.merged path) text (m.unexpand path text)) ∧
      (m.found path text).text = text ∧
      (m.found path text).filled? (m.lookUp path) = some (m.expand path text) ∧
      (m.reversed.found path text).text = text ∧
      (m.reversed.found path text).filled? (m.reversed.lookUp path) = some (m.unexpand path text) := by
  have lookedUp : ∀ n : Macros, n.lookUp path = Table.get? (n.merged path) :=
    fun n => funext (n.lookUp_eq path)
  refine ⟨singlePass_expand text, singlePass_expand text, m.text_found path text, ?_,
    m.reversed.text_found path text, ?_⟩
  · rw [lookedUp, filled?_found]
  · rw [lookedUp, filled?_found, unexpand]

def chained : Macros := [("*.sql", [("$T", "$TX"), ("$TX", "|")])]

theorem expand_single_pass_chained :
    ("" : Text) ∉ Table.keys (chained.merged "q.sql") ∧ ("" : Text) ∉ Table.keys (chained.reversed.merged "q.sql") ∧
      chained.found "q.sql" "$TX|$T" = .next "" "$T" (.next "X|" "$T" (.last "")) ∧
      chained.expand "q.sql" "$TX|$T" = "$TXX|$TX" ∧
      SinglePass (chained.merged "q.sql") "$TX|$T" (chained.expand "q.sql" "$TX|$T") ∧
      SinglePass (chained.reversed.merged "q.sql") "$TX|$T" (chained.unexpand "q.sql" "$TX|$T") := by
  have forward : ("" : Text) ∉ Table.keys (chained.merged "q.sql") := by decide
  have backward : ("" : Text) ∉ Table.keys (chained.reversed.merged "q.sql") := by decide
  obtain ⟨expands, reverts, _⟩ := expand_single_pass chained "q.sql" "$TX|$T"
  exact ⟨forward, backward, by decide, by decide, expands forward, reverts backward⟩

end Macros

end SqlMigration
