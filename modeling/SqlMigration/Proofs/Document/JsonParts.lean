import SqlMigration.Document.Json
import SqlMigration.Proofs.Document.Parts
import SqlMigration.Proofs.Effect

/-!
# Values of JSON texts

No value that is read from a JSON text has a binary scalar in it, or a mapping
with a key twice.
-/

set_option autoImplicit false

namespace SqlMigration

namespace Value

theorem plain_scalar {s : Scalar} (h : ∀ b, s ≠ .bytes b) : (Value.scalar s).Plain :=
  ⟨fun _ inside => (nomatch inside), fun b same => h b (Option.some.inj same)⟩

theorem plain_list (vs : List Value) : (Value.list vs).Plain :=
  ⟨fun _ inside => (nomatch inside), fun _ same => (nomatch same)⟩

theorem plain_map {es : List (Scalar × Value)} (distinct : (es.map Prod.fst).Nodup) : (Value.map es).Plain :=
  ⟨fun _ inside => Option.some.inj inside ▸ distinct, fun _ same => (nomatch same)⟩

end Value

namespace Json

open Effect (bind_eq_ok mapError_eq_ok)

theorem number_plain {r r' : Rest} {s : Scalar} (h : number r = .ok (s, r')) (b : Bytes) : s ≠ .bytes b := by
  rintro rfl
  simp only [number] at h
  repeat' split at h
  all_goals simp [expect] at h

theorem word_plain {r r' : Rest} {s : Scalar} (h : word? r = some (s, r')) (b : Bytes) : s ≠ .bytes b := by
  obtain ⟨w, found, eq⟩ := Option.map_eq_some_iff.mp h
  have mem := List.mem_of_find?_eq_some found
  have plain : ∀ w ∈ wordValues, ∀ b, w.2 ≠ .bytes b := by simp [wordValues]
  cases eq
  exact plain w mem b

def PlainPairs (ps : List (Scalar × Value)) : Prop :=
  ∀ p ∈ ps, (∃ s, p.1 = .text s) ∧ p.2.Throughout Value.Plain

theorem throughout_entriesOf {ps : List (Scalar × Value)} (h : PlainPairs ps) :
    (Value.map (entriesOf ps)).Throughout Value.Plain := by
  have same : ∀ p ∈ ps, p.1.same p.1 = true := by
    intro p mem
    obtain ⟨s, text⟩ := (h p mem).1
    rw [text]
    exact Scalar.same_self Scalar.noConfusion
  refine .map (Value.plain_map (nodup_entriesOf same)) fun e mem => ?_
  obtain ⟨⟨s, text⟩, inside⟩ := forall_entriesOf (P := fun k => ∃ s, k = .text s) h e mem
  refine ⟨.scalar (Value.plain_scalar ?_), inside⟩
  rw [text]
  exact fun _ => Scalar.noConfusion

/-- The three readers, by induction on the fuel that they share. -/
theorem plain_readers (fuel : Nat) :
    (∀ r v r', value fuel r = .ok (v, r') → v.Throughout Value.Plain) ∧
      (∀ r vs r', items fuel r = .ok (vs, r') → ∀ v ∈ vs, v.Throughout Value.Plain) ∧
      ∀ r ps r', pairs fuel r = .ok (ps, r') → PlainPairs ps := by
  induction fuel with
  | zero =>
    refine ⟨fun r v r' h => ?_, fun r vs r' h => ?_, fun r ps r' h => ?_⟩
    · rw [value] at h
      cases h
    · rw [items] at h
      cases h
    · rw [pairs] at h
      cases h
  | succ fuel ih =>
    obtain ⟨values, lists, objects⟩ := ih
    refine ⟨fun r v r' h => ?_, fun r vs r' h => ?_, fun r ps r' h => ?_⟩
    · rw [value] at h
      split at h
      · cases h
      · obtain ⟨⟨s, _⟩, _, h⟩ := bind_eq_ok h
        cases h
        exact .scalar (Value.plain_scalar fun _ => Scalar.noConfusion)
      · dsimp only at h
        split at h
        · cases h
          exact .list (Value.plain_list []) (fun _ mem => absurd mem List.not_mem_nil)
        · obtain ⟨⟨vs, _⟩, read, h⟩ := bind_eq_ok h
          cases h
          exact .list (Value.plain_list vs) (lists _ _ _ read)
      · dsimp only at h
        split at h
        · cases h
          exact .map (Value.plain_map List.nodup_nil) (fun _ mem => absurd mem List.not_mem_nil)
        · obtain ⟨⟨ps, _⟩, read, h⟩ := bind_eq_ok h
          cases h
          exact throughout_entriesOf (objects _ _ _ read)
      · split at h
        · next word =>
          cases h
          exact .scalar (Value.plain_scalar (word_plain word))
        · obtain ⟨⟨s, _⟩, read, h⟩ := bind_eq_ok h
          cases h
          exact .scalar (Value.plain_scalar (number_plain read))
    · rw [items] at h
      obtain ⟨⟨v, r₁⟩, first, h⟩ := bind_eq_ok h
      dsimp only at h
      split at h
      · cases h
        exact List.forall_mem_singleton.mpr (values _ _ _ first)
      · obtain ⟨⟨vs, _⟩, rest, h⟩ := bind_eq_ok h
        cases h
        exact List.forall_mem_cons.mpr ⟨values _ _ _ first, lists _ _ _ rest⟩
      · cases h
    · rw [pairs] at h
      split at h
      · obtain ⟨⟨s, r₁⟩, _, h⟩ := bind_eq_ok h
        dsimp only at h
        split at h
        · obtain ⟨⟨v, r₂⟩, first, h⟩ := bind_eq_ok h
          have entry : (∃ t, Scalar.text (Text.ofList s) = .text t) ∧ v.Throughout Value.Plain :=
            ⟨⟨_, rfl⟩, values _ _ _ first⟩
          dsimp only at h
          split at h
          · cases h
            exact List.forall_mem_singleton.mpr entry
          · obtain ⟨⟨ps, _⟩, rest, h⟩ := bind_eq_ok h
            cases h
            exact List.forall_mem_cons.mpr ⟨entry, objects _ _ _ rest⟩
          · cases h
        · cases h
      · cases h

theorem plain_read {text : List Char} {v : Value} (h : read text = .ok v) : v.Throughout Value.Plain := by
  have run := mapError_eq_ok.mp h
  split at run
  · cases run
  · obtain ⟨⟨w, r⟩, first, rest⟩ := bind_eq_ok run
    dsimp only at rest
    split at rest
    · cases rest
      exact (plain_readers _).1 _ _ _ first
    · cases rest

end Json

end SqlMigration
