import Mathlib.Data.List.TakeWhile
import SqlMigration.Proofs.Macro.Merging
import SqlMigration.Proofs.Macro.Segments

/-!
# Taking an expansion back

Reversal scans the expanded text with rules of its own, built from the same
entries. It gives the text back when it meets the values exactly where expansion
has put them. Values that differ are not enough: one value may begin another,
and a value may arise where kept text meets a replacement.
-/

set_option autoImplicit false

namespace SqlMigration.Macros

open Expansion

/-- The replacements that expansion makes in a text: where each stands in the result, and the value
that was put there. -/
def insertions (m : Macros) (path : String) (text : Text) : List (Nat × Text) :=
  (insertionsFrom 0 (segments (rules (m.merged path)) text.toList)).map
    (fun p => (p.1, Text.ofList p.2))

def OccursAt (part whole : Text) (i : Nat) : Prop := part.toList <+: whole.toList.drop i

instance (part whole : Text) (i : Nat) : Decidable (OccursAt part whole i) :=
  inferInstanceAs (Decidable (_ <+: _))

/-- Every value of the entries for the path is a text of its own, for one macro only. -/
structure Reversible (m : Macros) (path : String) : Prop where
  nonempty : ∀ p ∈ m.entries path, p.2 ≠ ""
  unambiguous : ∀ p ∈ m.entries path, ∀ q ∈ m.entries path, p.2 = q.2 → p.1 = q.1

def pathSegments (m : Macros) (path : String) (text : Text) : List Segment :=
  segments (rules (m.merged path)) text.toList

theorem toList_expand (m : Macros) (path : String) (text : Text) :
    (m.expand path text).toList = results (m.pathSegments path text) := by
  rw [pathSegments, results_segments, expand, applyTable, Text.toList_ofList]

theorem entry_of_replaced {m : Macros} {path : String} {text : Text} {r : Rule}
    (h : Segment.replaced r ∈ m.pathSegments path text) :
    (Text.ofList r.1, Text.ofList r.2) ∈ m.entries path :=
  mem_entries_of_mem_merged (mem_rules.mp (replaced_mem_rules h))

/-- Every value of the table for the path can be written. -/
def Whole (m : Macros) (path : String) : Prop := ∀ p ∈ m.merged path, p.2.Whole

instance (m : Macros) (path : String) : Decidable (m.Whole path) :=
  inferInstanceAs (Decidable (∀ p ∈ m.merged path, p.2.Whole))

theorem whole_of_values {m : Macros} (h : ∀ p ∈ m, ∀ e ∈ p.2, e.2.Whole) (path : String) :
    m.Whole path := by
  intro e he
  obtain ⟨p, hp, mem⟩ := List.mem_flatMap.mp (mem_entries_of_mem_merged he)
  exact h p (List.mem_of_mem_filter hp) e mem

theorem mem_expand {m : Macros} {path : String} {text : Text} {c : Code}
    (h : c ∈ (m.expand path text).toList) :
    c ∈ text.toList ∨ ∃ p ∈ m.merged path, c ∈ p.2.toList := by
  rw [toList_expand] at h
  obtain ⟨g, hg, hc⟩ := List.mem_flatMap.mp h
  cases g with
  | kept a =>
    left
    rw [← sources_segments (rules (m.merged path)) text.toList]
    exact List.mem_flatMap.mpr ⟨_, hg, hc⟩
  | replaced r => exact Or.inr ⟨_, mem_rules.mp (replaced_mem_rules hg), hc⟩

theorem Whole.expand {m : Macros} {path : String} {text : Text} (h : m.Whole path) (whole : text.Whole) :
    (m.expand path text).Whole := by
  intro c mem
  rcases mem_expand mem with inside | ⟨p, hp, inside⟩
  · exact whole c inside
  · exact h p hp c inside

theorem entry_of_back {m : Macros} {path : String} {r : Rule}
    (h : r ∈ rules (m.reversed.merged path)) :
    (Text.ofList r.2, Text.ofList r.1) ∈ m.entries path :=
  mem_entries_of_mem_reversed (mem_rules.mp h)

theorem Reversible.back_nonempty {m : Macros} {path : String} (h : m.Reversible path) :
    ∀ r ∈ rules (m.reversed.merged path), r.1 ≠ [] := by
  intro r hr he
  exact h.nonempty _ (entry_of_back hr) (by rw [he]; rfl)

theorem Reversible.replaced_nonempty {m : Macros} {path : String} {text : Text} (h : m.Reversible path)
    {r : Rule} (hr : Segment.replaced r ∈ m.pathSegments path text) : r.2 ≠ [] := by
  intro he
  exact h.nonempty _ (entry_of_replaced hr) (by rw [he]; rfl)

def reversalOrder (m : Macros) (path : String) : List Text := Table.keys (m.reversed.merged path)

/-- At a replacement reversal puts the replaced macro back, unless a value that is tried earlier
stands there as well. -/
theorem Reversible.first?_of_replaced {m : Macros} {path : String} {text : Text} (h : m.Reversible path)
    {r : Rule} {rest : List Code} (hr : Segment.replaced r ∈ m.pathSegments path text)
    (earlier : ∀ v ∈ (m.reversalOrder path).takeWhile (· ≠ Text.ofList r.2),
      ¬ v.toList <+: r.2 ++ rest) :
    first? (rules (m.reversed.merged path)) (r.2 ++ rest) = some (r.2, r.1) := by
  have entry := entry_of_replaced hr
  obtain ⟨p, hp, hv⟩ := List.mem_map.mp (value_mem_keys_reversed entry)
  have known : (r.2, p.2.toList) ∈ rules (m.reversed.merged path) :=
    List.mem_map.mpr ⟨p, hp, by rw [hv, Text.toList_ofList]⟩
  cases hf : first? (rules (m.reversed.merged path)) (r.2 ++ rest) with
  | none =>
    have := List.find?_eq_none.mp hf _ known
    simp at this
  | some b =>
    obtain ⟨hb, hpre⟩ := mem_of_first? hf
    have hkey : b.1 = r.2 := by
      by_contra hne
      obtain ⟨-, front, back, split, unfit⟩ := List.find?_eq_some_iff_append.mp hf
      -- the keys up to that of `b` differ from the replacement, which would have fitted
      have ordered : m.reversalOrder path =
          (front.map (fun a => Text.ofList a.1) ++ [Text.ofList b.1]) ++
            back.map (fun a => Text.ofList a.1) := by
        have hk : m.reversalOrder path =
            (rules (m.reversed.merged path)).map (fun a => Text.ofList a.1) := by
          simp [reversalOrder, Table.keys, rules]
        rw [hk, split]
        simp
      have differ : ∀ v ∈ front.map (fun a => Text.ofList a.1) ++ [Text.ofList b.1],
          decide (v ≠ Text.ofList r.2) = true := by
        intro v hv
        rw [decide_eq_true_eq]
        rcases List.mem_append.mp hv with hv | hv
        · obtain ⟨a, ha, rfl⟩ := List.mem_map.mp hv
          intro e
          have := unfit a ha
          rw [Text.ofList_inj.mp e, List.isPrefixOf_iff_prefix.mpr (List.prefix_append _ _)] at this
          cases this
        · rw [List.mem_singleton.mp hv]
          exact fun e => hne (Text.ofList_inj.mp e)
      refine earlier (Text.ofList b.1) ?_ (by simpa using hpre)
      rw [ordered, List.takeWhile_append_of_pos differ]
      simp
    have hmacro := h.unambiguous _ (entry_of_back hb) _ entry (by rw [hkey])
    rw [Text.ofList_inj] at hmacro
    rw [← hkey, ← hmacro]

theorem unexpand_of_takesBack {m : Macros} {path : String} {text : Text} (h : m.Reversible path)
    (back : TakesBack (rules (m.reversed.merged path)) (m.pathSegments path text)) :
    m.unexpand path (m.expand path text) = text := by
  have hr := expand_results h.back_nonempty back
  rw [← toList_expand, pathSegments, sources_segments] at hr
  rw [unexpand, expand, applyTable, hr, Text.ofList_toList]

/-! ### Where the values stand in the expanded text -/

section Positions

variable {m : Macros} {path : String} {text : Text} {before rest : List Segment} {g : Segment}

theorem occursAt_split (split : m.pathSegments path text = before ++ g :: rest) {v : List Code}
    (h : v <+: results (g :: rest)) :
    OccursAt (Text.ofList v) (m.expand path text) (results before).length := by
  rw [OccursAt, toList_expand, split, results_append, Text.toList_ofList, List.drop_left]
  exact h

theorem mem_insertions_iff {i : Nat} {v : Text} :
    (i, v) ∈ m.insertions path text ↔ (i, v.toList) ∈ insertionsFrom 0 (m.pathSegments path text) := by
  constructor
  · intro h
    obtain ⟨⟨j, u⟩, hp, e⟩ := List.mem_map.mp h
    rw [Prod.mk.injEq] at e
    obtain ⟨rfl, rfl⟩ := e
    rwa [Text.toList_ofList]
  · intro h
    exact List.mem_map.mpr ⟨_, h, by rw [Text.ofList_toList]⟩

theorem mem_insertions_split (split : m.pathSegments path text = before ++ g :: rest)
    {i : Nat} {v : Text} (h : (i, v) ∈ m.insertions path text)
    (reaches : (results before).length < i + v.length) :
    (i, v.toList) ∈ insertionsFrom (results before).length (g :: rest) := by
  rw [mem_insertions_iff, split, insertionsFrom_append, List.mem_append, Nat.zero_add] at h
  refine h.resolve_left ?_
  intro hb
  have bounds := insertionsFrom_bounds hb
  rw [Text.length_toList] at bounds
  omega

end Positions

/-- Every occurrence of a value in the expanded text is one that expansion has put there. -/
def Aligned (m : Macros) (path : String) (text : Text) : Prop :=
  ∀ p ∈ m.entries path, ∀ i, OccursAt p.2 (m.expand path text) i → (i, p.2) ∈ m.insertions path text

theorem Aligned.takesBack {m : Macros} {path : String} {text : Text} (aligned : m.Aligned path text)
    (h : m.Reversible path) :
    TakesBack (rules (m.reversed.merged path)) (m.pathSegments path text) := by
  apply takesBack_of_meets
  intro before g rest split
  have place : ∀ b ∈ rules (m.reversed.merged path), b.1 <+: results (g :: rest) →
      ((results before).length, b.1) ∈ insertionsFrom (results before).length (g :: rest) := by
    intro b hb hpre
    have hne := List.length_pos_iff.mpr (h.back_nonempty b hb)
    have hin := aligned _ (entry_of_back hb) _ (occursAt_split split hpre)
    have hs := mem_insertions_split split hin (by rw [Text.length_ofList]; omega)
    rwa [Text.toList_ofList] at hs
  cases g with
  | kept c =>
    -- whatever replacement follows stands further right
    rw [Meets, first?, List.find?_eq_none]
    intro b hb hpre
    have later : ((results before).length, b.1) ∈ insertionsFrom ((results before).length + 1) rest :=
      place b hb (List.isPrefixOf_iff_prefix.mp hpre)
    have bounds := insertionsFrom_bounds later
    omega
  | replaced r =>
    have hr : Segment.replaced r ∈ m.pathSegments path text := by
      rw [split]
      exact List.mem_append_right _ List.mem_cons_self
    have hne := h.replaced_nonempty hr
    refine ⟨hne, h.first?_of_replaced hr ?_⟩
    intro v hv hpre
    have hne' : v ≠ Text.ofList r.2 := by simpa using List.mem_takeWhile_imp hv
    obtain ⟨p, hp, rfl⟩ := List.mem_map.mp ((List.takeWhile_prefix _).subset hv)
    have hb : (p.1.toList, p.2.toList) ∈ rules (m.reversed.merged path) :=
      List.mem_map.mpr ⟨p, hp, rfl⟩
    rcases List.mem_cons.mp (place _ hb hpre) with same | later
    · exact hne' (by rw [← (Prod.mk.inj same).2, Text.ofList_toList])
    · have bounds := insertionsFrom_bounds later
      have hl := List.length_pos_iff.mpr hne
      omega

/-- Reversal takes expansion back if every occurrence of a value in the expanded text is one that
expansion has put there. Keys may be of any kind, the empty key among them. -/
theorem unexpand_expand_of_aligned (m : Macros) (path : String) (text : Text) (h : m.Reversible path)
    (aligned : m.Aligned path text) : m.unexpand path (m.expand path text) = text :=
  unexpand_of_takesBack h (aligned.takesBack h)

theorem OccursAt.lt_length {part whole : Text} {i : Nat} (h : OccursAt part whole i)
    (hne : part ≠ "") : i < whole.length := by
  by_contra hge
  rw [OccursAt, List.drop_eq_nil_of_le (by rw [Text.length_toList]; omega), List.prefix_nil] at h
  exact hne (Text.toList_eq_nil_iff.mp h)

def overlapping : Macros :=
  [("*", [("$XY", "<2>"), ("$X", "ab"), ("", "_")]), ("q.*", [("$X", "<1>")])]

theorem unexpand_expand_overlapping :
    overlapping.Reversible "q.sql" ∧
    (∀ p ∈ overlapping.entries "q.sql", ∀ i, OccursAt p.2 (overlapping.expand "q.sql" "$XY$Xa") i →
      (i, p.2) ∈ overlapping.insertions "q.sql" "$XY$Xa") ∧
    overlapping.expand "q.sql" "$XY$Xa" = "<2><1>_a_" ∧
    overlapping.unexpand "q.sql" (overlapping.expand "q.sql" "$XY$Xa") = "$XY$Xa" := by
  have hr : overlapping.Reversible "q.sql" := ⟨by decide, by decide⟩
  have hb : ∀ p ∈ overlapping.entries "q.sql", ∀ i < 9,
      OccursAt p.2 (overlapping.expand "q.sql" "$XY$Xa") i →
        (i, p.2) ∈ overlapping.insertions "q.sql" "$XY$Xa" := by decide
  have hl : (overlapping.expand "q.sql" "$XY$Xa").length = 9 := by decide
  have ha : ∀ p ∈ overlapping.entries "q.sql", ∀ i,
      OccursAt p.2 (overlapping.expand "q.sql" "$XY$Xa") i →
        (i, p.2) ∈ overlapping.insertions "q.sql" "$XY$Xa" := by
    intro p hp i hi
    exact hb p hp i (hl ▸ hi.lt_length (hr.nonempty p hp)) hi
  exact ⟨hr, ha, by decide, unexpand_expand_of_aligned _ _ _ hr ha⟩

def shortBeforeLong : Macros := [("*.sql", [("A", "x"), ("B", "xy")])]

def meeting : Macros := [("*.sql", [("A", "xy"), ("B", "yz")])]

/-- Values that differ, and of which none occurs in the text, do not suffice. In the first case one
value begins another and is tried before it, in the second a value arises from kept text and a
replacement. -/
theorem unexpand_expand_fails :
    ((∀ p ∈ shortBeforeLong.entries "q.sql", p.2 ≠ "") ∧
      ((shortBeforeLong.entries "q.sql").map (·.2)).Nodup ∧
      (∀ p ∈ shortBeforeLong.entries "q.sql", ¬ p.2.toList <:+: ("B" : Text).toList) ∧
      shortBeforeLong.unexpand "q.sql" (shortBeforeLong.expand "q.sql" "B") = "Ay") ∧
    ((∀ p ∈ meeting.entries "q.sql", p.2 ≠ "") ∧
      ((meeting.entries "q.sql").map (·.2)).Nodup ∧
      (∀ p ∈ meeting.entries "q.sql", ¬ p.2.toList <:+: ("xB" : Text).toList) ∧
      meeting.unexpand "q.sql" (meeting.expand "q.sql" "xB") = "Az") := by
  decide

def keptRun : List Segment → List Code
  | .kept c :: rest => c :: keptRun rest
  | _ => []

theorem keptRun_prefix_sources (gs : List Segment) : keptRun gs <+: sources gs := by
  induction gs with
  | nil => exact List.prefix_refl _
  | cons g gs ih =>
    cases g with
    | kept c => exact List.prefix_cons_inj c |>.mpr ih
    | replaced r => exact List.nil_prefix

theorem prefix_keptRun_or_insertion {gs : List Segment} {v : List Code} (start : Nat)
    (h : v <+: results gs) :
    v <+: keptRun gs ∨
      ∃ r, (start + (keptRun gs).length, r) ∈ insertionsFrom start gs ∧ (keptRun gs).length < v.length := by
  induction gs generalizing v start with
  | nil => exact Or.inl h
  | cons g gs ih =>
    cases g with
    | kept c =>
      cases v with
      | nil => exact Or.inl List.nil_prefix
      | cons d v =>
        obtain ⟨rfl, hv⟩ := List.cons_prefix_cons.mp h
        rcases ih (start + 1) hv with hk | ⟨r, hr, hl⟩
        · exact Or.inl (List.cons_prefix_cons.mpr ⟨rfl, hk⟩)
        · refine Or.inr ⟨r, ?_, by simpa [keptRun] using hl⟩
          have e : start + (keptRun (.kept d :: gs)).length = start + 1 + (keptRun gs).length := by
            simp [keptRun]
            omega
          rw [e]
          exact hr
    | replaced r =>
      cases v with
      | nil => exact Or.inl List.nil_prefix
      | cons d v => exact Or.inr ⟨r.2, List.mem_cons_self, Nat.zero_lt_succ _⟩

/-- Reversal takes expansion back if no value occurs in the text, none that is tried earlier stands
where a replacement was made, and none arises where kept text goes over into a replacement. -/
theorem unexpand_expand_of_uncrossed (m : Macros) (path : String) (text : Text) (h : m.Reversible path)
    (absent : ∀ p ∈ m.entries path, ¬ p.2.toList <:+: text.toList)
    (foremost : ∀ q ∈ m.insertions path text, ∀ v ∈ (m.reversalOrder path).takeWhile (· ≠ q.2),
      ¬ OccursAt v (m.expand path text) q.1)
    (uncrossed : ∀ p ∈ m.entries path, ∀ i, OccursAt p.2 (m.expand path text) i →
      ∀ q ∈ m.insertions path text, i < q.1 → q.1 < i + p.2.length →
        ∃ r ∈ m.insertions path text, r.1 ≤ i ∧ i < r.1 + r.2.length) :
    m.unexpand path (m.expand path text) = text := by
  apply unexpand_of_takesBack h
  apply takesBack_of_meets
  intro before g rest split
  cases g with
  | kept c =>
    rw [Meets, first?, List.find?_eq_none]
    intro b hb hpre
    have hp : b.1 <+: results (.kept c :: rest) := List.isPrefixOf_iff_prefix.mp hpre
    rcases prefix_keptRun_or_insertion (results before).length hp with hk | ⟨v, hv, hl⟩
    · apply absent _ (entry_of_back hb)
      have hs := sources_segments (rules (m.merged path)) text.toList
      change sources (m.pathSegments path text) = _ at hs
      rw [split, sources_append] at hs
      rw [Text.toList_ofList, ← hs]
      exact (hk.trans (keptRun_prefix_sources _)).isInfix.trans (List.suffix_append _ _).isInfix
    · -- the replacement that it reaches into would have to follow another one that covers `c`
      have he := entry_of_back hb
      have hin : ((results before).length + (keptRun (.kept c :: rest)).length, Text.ofList v) ∈
          m.insertions path text := by
        rw [mem_insertions_iff, split, insertionsFrom_append, Nat.zero_add, Text.toList_ofList]
        exact List.mem_append_right _ hv
      obtain ⟨⟨k, y⟩, hy, lower, upper⟩ := uncrossed _ he _ (occursAt_split split hp) _ hin
        (by simp [keptRun]) (by simpa using hl)
      have later : (k, y.toList) ∈ insertionsFrom ((results before).length + 1) rest :=
        mem_insertions_split split hy upper
      have bounds := insertionsFrom_bounds later
      omega
  | replaced r =>
    have hr : Segment.replaced r ∈ m.pathSegments path text := by
      rw [split]
      exact List.mem_append_right _ List.mem_cons_self
    refine ⟨h.replaced_nonempty hr, h.first?_of_replaced hr ?_⟩
    intro v hv hpre
    have hin : ((results before).length, Text.ofList r.2) ∈ m.insertions path text := by
      rw [mem_insertions_iff, split, insertionsFrom_append, Nat.zero_add, Text.toList_ofList]
      exact List.mem_append_right _ List.mem_cons_self
    have ho := occursAt_split split hpre
    rw [Text.ofList_toList] at ho
    exact foremost _ hin v hv ho

def longBeforeShort : Macros := [("*.sql", [("B", "xy"), ("A", "x")])]

theorem unexpand_expand_long_before_short :
    longBeforeShort.Reversible "q.sql" ∧ longBeforeShort.expand "q.sql" "B-A" = "xy-x" ∧
    longBeforeShort.unexpand "q.sql" (longBeforeShort.expand "q.sql" "B-A") = "B-A" := by
  have hr : longBeforeShort.Reversible "q.sql" := ⟨by decide, by decide⟩
  have hb : ∀ p ∈ longBeforeShort.entries "q.sql", ∀ i < 4,
      OccursAt p.2 (longBeforeShort.expand "q.sql" "B-A") i →
      ∀ q ∈ longBeforeShort.insertions "q.sql" "B-A", i < q.1 → q.1 < i + p.2.length →
        ∃ r ∈ longBeforeShort.insertions "q.sql" "B-A", r.1 ≤ i ∧ i < r.1 + r.2.length := by decide
  have hl : (longBeforeShort.expand "q.sql" "B-A").length = 4 := by decide
  refine ⟨hr, by decide, unexpand_expand_of_uncrossed _ _ _ hr (by decide) (by decide) ?_⟩
  intro p hp i hi
  exact hb p hp i (hl ▸ hi.lt_length (hr.nonempty p hp)) hi

end SqlMigration.Macros
