import SqlMigration.Proofs.Text.Codes
import SqlMigration.Macro.Expansion

/-!
# The segments of an expansion

Expansion cuts a text into segments: characters that are kept and keys that are
replaced. Put together, the sources of the segments are the text and their
results are the expanded text. A second list of rules takes the expansion back
when its scan of the expanded text falls into the same segments.
-/

set_option autoImplicit false

namespace SqlMigration.Expansion

inductive Segment where
  | kept (c : Code)
  | replaced (r : Rule)
  deriving DecidableEq, Repr

def Segment.source : Segment → List Code
  | .kept c => [c]
  | .replaced r => r.1

def Segment.result : Segment → List Code
  | .kept c => [c]
  | .replaced r => r.2

def sources (segments : List Segment) : List Code := segments.flatMap Segment.source

def results (segments : List Segment) : List Code := segments.flatMap Segment.result

def blankSegments (rules : List Rule) (s : List Code) : List Segment :=
  match first? rules s with
  | some ([], v) => [.replaced ([], v)]
  | _ => []

def segmentsFrom (rules : List Rule) (skip : Nat) : List Code → List Segment
  | [] => if skip = 0 then blankSegments rules [] else []
  | c :: cs =>
    match skip with
    | k + 1 => segmentsFrom rules k cs
    | 0 =>
      blankSegments rules (c :: cs) ++
        match (atPlace rules (c :: cs)).2 with
        | some r => .replaced r :: segmentsFrom rules (r.1.length - 1) cs
        | none => .kept c :: segmentsFrom rules 0 cs

def segments (rules : List Rule) (s : List Code) : List Segment := segmentsFrom rules 0 s

@[simp]
theorem sources_cons (g : Segment) (gs : List Segment) :
    sources (g :: gs) = g.source ++ sources gs := rfl

@[simp]
theorem results_cons (g : Segment) (gs : List Segment) :
    results (g :: gs) = g.result ++ results gs := rfl

theorem sources_append (gs hs : List Segment) : sources (gs ++ hs) = sources gs ++ sources hs := by
  simp [sources]

theorem results_append (gs hs : List Segment) : results (gs ++ hs) = results gs ++ results hs := by
  simp [results]

theorem sources_blankSegments (rules : List Rule) (s : List Code) :
    sources (blankSegments rules s) = [] := by
  unfold blankSegments
  split <;> rfl

theorem results_blankSegments (rules : List Rule) (s : List Code) :
    results (blankSegments rules s) = (atPlace rules s).1 := by
  unfold blankSegments atPlace
  cases first? rules s with
  | none => rfl
  | some r =>
    obtain ⟨key, v⟩ := r
    cases key with
    | nil => simp [results, Segment.result]
    | cons c cs => rfl

theorem mem_of_first? {rules : List Rule} {s : List Code} {r : Rule}
    (h : first? rules s = some r) : r ∈ rules ∧ r.1 <+: s := by
  refine ⟨List.mem_of_find?_eq_some h, ?_⟩
  have hp := List.find?_some h
  simpa using hp

theorem atPlace_rule {rules : List Rule} {s : List Code} {r : Rule}
    (h : (atPlace rules s).2 = some r) : r ∈ rules ∧ r.1 ≠ [] ∧ r.1 <+: s := by
  unfold atPlace at h
  split at h
  · have hm := List.mem_of_find?_eq_some h
    have hp := List.find?_some h
    simp only [Bool.and_eq_true, Bool.not_eq_true', List.isEmpty_eq_false_iff,
      List.isPrefixOf_iff_prefix] at hp
    exact ⟨hm, hp.1, hp.2⟩
  · next hne =>
    have hf : first? rules s = some r := h
    obtain ⟨hm, hp⟩ := mem_of_first? hf
    refine ⟨hm, ?_, hp⟩
    intro he
    exact hne r.2 (by rw [hf, ← he])

theorem results_segmentsFrom (rules : List Rule) (skip : Nat) (s : List Code) :
    results (segmentsFrom rules skip s) = expandFrom rules skip s := by
  induction s generalizing skip with
  | nil =>
    cases skip with
    | zero => exact results_blankSegments rules []
    | succ k => rfl
  | cons c cs ih =>
    cases skip with
    | succ k => exact ih k
    | zero =>
      have hb := results_blankSegments rules (c :: cs)
      rw [segmentsFrom, results_append, hb]
      rw [expandFrom]
      cases hr : atPlace rules (c :: cs) with
      | mk v r =>
        cases r with
        | none => simp [Segment.result, ih]
        | some r => simp [Segment.result, ih]

theorem sources_segmentsFrom (rules : List Rule) (skip : Nat) (s : List Code) :
    sources (segmentsFrom rules skip s) = s.drop skip := by
  induction s generalizing skip with
  | nil =>
    cases skip with
    | zero => exact sources_blankSegments rules []
    | succ k => rfl
  | cons c cs ih =>
    cases skip with
    | succ k => exact ih k
    | zero =>
      rw [segmentsFrom, sources_append, sources_blankSegments]
      cases hr : (atPlace rules (c :: cs)).2 with
      | none => simp [Segment.source, ih]
      | some r =>
        obtain ⟨-, hne, rest, hrest⟩ := atPlace_rule hr
        -- the key starts with `c`, and the rest of it is passed over
        obtain ⟨d, ds, hd⟩ := List.exists_cons_of_ne_nil hne
        rw [hd, List.cons_append] at hrest
        obtain ⟨rfl, rfl⟩ := List.cons.inj hrest
        simp [Segment.source, ih, hd]

theorem results_segments (rules : List Rule) (s : List Code) :
    results (segments rules s) = expand rules s := results_segmentsFrom rules 0 s

theorem sources_segments (rules : List Rule) (s : List Code) :
    sources (segments rules s) = s := sources_segmentsFrom rules 0 s

theorem replaced_mem_rules {rules : List Rule} {skip : Nat} {s : List Code} {r : Rule}
    (h : Segment.replaced r ∈ segmentsFrom rules skip s) : r ∈ rules := by
  have blank : ∀ t, Segment.replaced r ∈ blankSegments rules t → r ∈ rules := by
    intro t ht
    unfold blankSegments at ht
    split at ht
    · next v hf =>
      rw [List.mem_singleton, Segment.replaced.injEq] at ht
      exact ht ▸ (mem_of_first? hf).1
    · exact absurd ht List.not_mem_nil
  induction s generalizing skip with
  | nil =>
    cases skip with
    | zero => exact blank [] h
    | succ k => exact absurd h List.not_mem_nil
  | cons c cs ih =>
    cases skip with
    | succ k => exact ih h
    | zero =>
      rw [segmentsFrom, List.mem_append] at h
      rcases h with h | h
      · exact blank _ h
      · cases hr : (atPlace rules (c :: cs)).2 with
        | none =>
          rw [hr, List.mem_cons] at h
          rcases h with h | h
          · cases h
          · exact ih h
        | some q =>
          rw [hr, List.mem_cons] at h
          rcases h with h | h
          · cases h
            exact (atPlace_rule hr).1
          · exact ih h

/-- Where replacements stand in the result, counted from `start`, and what was put there. -/
def insertionsFrom (start : Nat) : List Segment → List (Nat × List Code)
  | [] => []
  | .kept _ :: rest => insertionsFrom (start + 1) rest
  | .replaced r :: rest => (start, r.2) :: insertionsFrom (start + r.2.length) rest

theorem insertionsFrom_append (start : Nat) (gs hs : List Segment) :
    insertionsFrom start (gs ++ hs) =
      insertionsFrom start gs ++ insertionsFrom (start + (results gs).length) hs := by
  induction gs generalizing start with
  | nil => rfl
  | cons g gs ih =>
    cases g with
    | kept c =>
      have hl : start + (results (.kept c :: gs)).length = start + 1 + (results gs).length := by
        simp [Segment.result]
        omega
      rw [hl]
      exact ih (start + 1)
    | replaced r =>
      have hl : start + (results (.replaced r :: gs)).length =
          start + r.2.length + (results gs).length := by
        simp [Segment.result]
        omega
      rw [hl]
      exact congrArg ((start, r.2) :: ·) (ih (start + r.2.length))

theorem insertionsFrom_bounds {start : Nat} {gs : List Segment} {i : Nat} {v : List Code}
    (h : (i, v) ∈ insertionsFrom start gs) :
    start ≤ i ∧ i + v.length ≤ start + (results gs).length := by
  induction gs generalizing start with
  | nil => exact absurd h List.not_mem_nil
  | cons g gs ih =>
    cases g with
    | kept c =>
      obtain ⟨lower, upper⟩ := ih h
      simp only [results_cons, Segment.result, List.length_append, List.length_singleton]
      omega
    | replaced r =>
      simp only [results_cons, Segment.result, List.length_append]
      rcases List.mem_cons.mp h with h | h
      · rw [Prod.mk.injEq] at h
        obtain ⟨rfl, rfl⟩ := h
        omega
      · obtain ⟨lower, upper⟩ := ih h
        omega

/-- A scan with `back`, come to a segment with `rest` after it, falls into this segment: it uses no
rule where a character was kept, and the rule that takes a replacement back where one was made. -/
def Meets (back : List Rule) (rest : List Segment) : Segment → Prop
  | .kept c => first? back (c :: results rest) = none
  | .replaced r => r.2 ≠ [] ∧ first? back (r.2 ++ results rest) = some (r.2, r.1)

def TakesBack (back : List Rule) : List Segment → Prop
  | [] => True
  | g :: rest => Meets back rest g ∧ TakesBack back rest

theorem takesBack_of_meets {back : List Rule} {gs : List Segment}
    (h : ∀ before g rest, gs = before ++ g :: rest → Meets back rest g) : TakesBack back gs := by
  induction gs with
  | nil => trivial
  | cons g gs ih =>
    refine ⟨h [] g gs rfl, ih ?_⟩
    intro before k rest e
    exact h (g :: before) k rest (by rw [e, List.cons_append])

theorem expandFrom_skip (rules : List Rule) (u s : List Code) :
    expandFrom rules u.length (u ++ s) = expandFrom rules 0 s := by
  induction u with
  | nil => rfl
  | cons c u ih => exact ih

theorem expand_kept {rules : List Rule} {c : Code} {cs : List Code}
    (h : first? rules (c :: cs) = none) : expand rules (c :: cs) = c :: expand rules cs := by
  have ha : atPlace rules (c :: cs) = ([], none) := by simp [atPlace, h]
  simp [expand, expandFrom, ha]

theorem expand_replaced {rules : List Rule} {key v s : List Code} (hk : key ≠ [])
    (h : first? rules (key ++ s) = some (key, v)) :
    expand rules (key ++ s) = v ++ expand rules s := by
  obtain ⟨c, cs, rfl⟩ := List.exists_cons_of_ne_nil hk
  rw [List.cons_append] at h ⊢
  have ha : atPlace rules (c :: (cs ++ s)) = ([], some (c :: cs, v)) := by simp [atPlace, h]
  have hs := expandFrom_skip rules cs s
  simp [expand, expandFrom, ha, hs]

/-- The second scan gives back the sources when it falls into the segments of the first. -/
theorem expand_results {back : List Rule} (hb : ∀ r ∈ back, r.1 ≠ []) {gs : List Segment}
    (h : TakesBack back gs) : expand back (results gs) = sources gs := by
  induction gs with
  | nil =>
    have hf : first? back [] = none := by
      rw [first?, List.find?_eq_none]
      intro r hr hp
      rw [List.isPrefixOf_iff_prefix, List.prefix_nil] at hp
      exact hb r hr hp
    simp [results, sources, expand, expandFrom, atPlace, hf]
  | cons g gs ih =>
    obtain ⟨hg, hr⟩ := h
    rw [results_cons, sources_cons, ← ih hr]
    cases g with
    | kept c => exact expand_kept hg
    | replaced r => exact expand_replaced hg.1 hg.2

end SqlMigration.Expansion
