import SqlMigration.Proofs.Document.Heaps
import SqlMigration.Proofs.Effect
import SqlMigration.Yaml.Document

/-!
# Keys of a document

However a document is written, with repeated keys, merged mappings or parts that
enclose themselves, no mapping in what is read from it has a key twice. This is
an invariant of the parts that have been made so far: a mapping is stored either
empty or with the entries of its pairs, and keys are scalars that equal
themselves.
-/

set_option autoImplicit false

namespace SqlMigration

/-- A scalar equals itself, and a mapping has no key twice. -/
def Part.Sound : Part → Prop
  | .scalar s => s.same s = true
  | .map entries => (entries.map Prod.fst).Nodup
  | _ => True

namespace Yaml

/-- The parts that have been made so far are sound. -/
def Reader.Sound (r : Reader) : Prop := ∀ p, some p ∈ r.parts → p.Sound

namespace Read

/-- A step that starts from sound parts leaves sound parts, and gives a result with a property. -/
def Yields {α : Type} (Q : α → Prop) (x : Read α) : Prop :=
  ∀ r a r', r.Sound → x r = .ok (a, r') → Q a ∧ r'.Sound

/-! ### Rules for steps -/

namespace Yields

variable {α β : Type} {Q : α → Prop} {R : β → Prop} {x : Read α}

theorem pure {a : α} (h : Q a) : Yields Q (pure a) := by
  rintro r _ _ sound ⟨⟩
  exact ⟨h, sound⟩

theorem throw (f : Fault) : Yields Q (throw f : Read α) := by
  rintro r a r' _ ⟨⟩

theorem bind {f : α → Read β} (hx : Yields Q x) (hf : ∀ a, Q a → Yields R (f a)) : Yields R (x >>= f) := by
  intro r b r'' sound h
  have run : (x >>= f) r = (x r >>= fun p => f p.1 p.2) := rfl
  rw [run] at h
  cases first : x r with
  | error e =>
    rw [first] at h
    cases h
  | ok p =>
    obtain ⟨a, r'⟩ := p
    rw [first] at h
    obtain ⟨ha, sound'⟩ := hx r a r' sound first
    exact hf a ha r' b r'' sound' h

theorem get : Yields Reader.Sound (get : Read Reader) := by
  rintro r _ _ sound ⟨⟩
  exact ⟨sound, sound⟩

theorem modify {f : Reader → Reader} (h : ∀ r, r.Sound → (f r).Sound) :
    Yields (fun _ => True) (modify f : Read Unit) := by
  rintro r _ _ sound ⟨⟩
  exact ⟨trivial, h r sound⟩

theorem mapM {f : β → Read α} (xs : List β) (h : ∀ b ∈ xs, Yields Q (f b)) :
    Yields (fun as => ∀ a ∈ as, Q a) (xs.mapM f) := by
  induction xs with
  | nil => exact pure (fun a mem => absurd mem List.not_mem_nil)
  | cons b xs ih =>
    obtain ⟨first, rest⟩ := List.forall_mem_cons.mp h
    rw [List.mapM_cons]
    exact first.bind fun a ha => (ih rest).bind fun as has => pure (List.forall_mem_cons.mpr ⟨ha, has⟩)

theorem forM {f : β → Read Unit} (xs : List β) (h : ∀ b ∈ xs, Yields (fun _ => True) (f b)) :
    Yields (fun _ => True) (xs.forM f) := by
  induction xs with
  | nil => exact pure trivial
  | cons b xs ih =>
    obtain ⟨first, rest⟩ := List.forall_mem_cons.mp h
    exact first.bind fun _ _ => ih rest

theorem findM? {f : β → Read Bool} (xs : List β) (h : ∀ b ∈ xs, Yields (fun _ => True) (f b)) :
    Yields (fun _ => True) (xs.findM? f) := by
  induction xs with
  | nil => exact pure trivial
  | cons b xs ih =>
    obtain ⟨first, rest⟩ := List.forall_mem_cons.mp h
    refine first.bind fun found _ => ?_
    cases found with
    | true => exact pure trivial
    | false => exact ih rest

end Yields

/-! ### Steps on the cells -/

theorem yields_cell (i : Nat) : Yields (fun _ => True) (cell i) := Yields.get.bind fun _ _ => .pure trivial

theorem yields_setCell (i : Nat) (c : Cell) : Yields (fun _ => True) (setCell i c) :=
  Yields.modify fun _ sound => sound

theorem yields_byCell {α : Type} {Q : α → Prop} {f : Cell → Read α} (i : Nat)
    (scalar : ∀ t s, Yields Q (f (.scalar t s))) (sequence : ∀ t items, Yields Q (f (.sequence t items)))
    (mapping : ∀ t ps, Yields Q (f (.mapping t ps))) : Yields Q (cell i >>= f) := by
  refine (yields_cell i).bind fun c _ => ?_
  cases c with
  | scalar t s => exact scalar t s
  | sequence t items => exact sequence t items
  | mapping t ps => exact mapping t ps

theorem yields_pairs (i : Nat) : Yields (fun _ => True) (pairs i) :=
  yields_byCell i (fun _ _ => .throw _) (fun _ _ => .throw _) (fun _ _ => .pure trivial)

theorem yields_setPairs (i : Nat) (ps : List (Nat × Nat)) : Yields (fun _ => True) (setPairs i ps) :=
  (yields_cell i).bind fun _ _ => yields_setCell i _

theorem yields_isMerged (i : Nat) : Yields (fun _ => True) (isMerged i) :=
  Yields.get.bind fun _ _ => .pure trivial

theorem yields_settle (i : Nat) (ps : List (Nat × Nat)) : Yields (fun _ => True) (settle i ps) :=
  (yields_setPairs i ps).bind fun _ _ => .modify fun _ sound => sound

section Merging

variable {merge : Nat → Read Unit} (h : ∀ j, Yields (fun _ => True) (merge j))

include h

theorem yields_mergedPairs (i : Nat) : Yields (fun _ => True) (mergedPairs merge i) := by
  refine yields_byCell i (fun _ _ => ?_) (fun _ items => ?_) (fun _ _ => ?_)
  · exact yields_byCell i (fun _ _ => .throw _) (fun _ _ => .throw _)
      (fun _ _ => (h i).bind fun _ _ => yields_pairs i)
  · refine (Yields.mapM (Q := fun _ => True) items fun j _ => ?_).bind fun _ _ => .pure trivial
    exact yields_byCell j (fun _ _ => .throw _) (fun _ _ => .throw _)
      (fun _ _ => (h j).bind fun _ _ => yields_pairs j)
  · exact yields_byCell i (fun _ _ => .throw _) (fun _ _ => .throw _)
      (fun _ _ => (h i).bind fun _ _ => yields_pairs i)

theorem yields_mergePairs (i : Nat) (front kept ps : List (Nat × Nat)) :
    Yields (fun _ => True) (mergePairs merge i front kept ps) := by
  induction ps generalizing front kept with
  | nil => exact yields_settle i _
  | cons p rest ih =>
    rw [mergePairs]
    refine (yields_cell p.1).bind fun c _ => ?_
    split
    · refine (yields_setPairs i _).bind fun _ _ => (yields_mergedPairs h p.2).bind fun more _ =>
        (yields_isMerged i).bind fun done _ => ?_
      cases done with
      | true => exact (yields_pairs i).bind fun ps _ => yields_settle i _
      | false => exact ih _ kept
    · exact (yields_cell p.1).bind fun _ _ => (yields_setCell p.1 _).bind fun _ _ => ih front _
    · exact ih front _

end Merging

theorem yields_merge (fuel i : Nat) : Yields (fun _ => True) (merge fuel i) := by
  induction fuel generalizing i with
  | zero => exact .pure trivial
  | succ fuel ih =>
    refine (yields_isMerged i).bind fun done _ => ?_
    cases done with
    | true => exact .pure trivial
    | false => exact (yields_pairs i).bind fun ps _ => yields_mergePairs ih i [] [] ps

theorem yields_allPairs (i : Nat) : Yields (fun _ => True) (allPairs i) :=
  Yields.get.bind fun _ _ => (yields_merge _ i).bind fun _ _ => yields_pairs i

theorem yields_scalarText (fuel i : Nat) : Yields (fun _ => True) (scalarText fuel i) := by
  induction fuel generalizing i with
  | zero => exact .throw _
  | succ fuel ih =>
    refine yields_byCell i (fun _ _ => .pure trivial) (fun _ _ => .throw _) (fun _ ps => ?_)
    refine (Yields.findM? ps fun p _ => (yields_cell p.1).bind fun _ _ => .pure trivial).bind fun found _ => ?_
    cases found with
    | none => exact .throw _
    | some p => exact ih p.2

/-! ### Scalars -/

def ReadsSame (x : Except Fault Scalar) : Prop := ∀ s, x = .ok s → s.same s = true

namespace ReadsSame

theorem ok {s : Scalar} (number : s ≠ .float .nan) : ReadsSame (.ok s) := by
  rintro _ ⟨⟩
  exact Scalar.same_self number

theorem error (f : Fault) : ReadsSame (.error f) := by
  rintro _ ⟨⟩

theorem bind {α : Type} {x : Except Fault α} {f : α → Except Fault Scalar} (h : ∀ a, ReadsSame (f a)) :
    ReadsSame (x >>= f) := by
  cases x with
  | error e => exact error e
  | ok a => exact h a

end ReadsSame

theorem readsSame_bool (text : Text) : ReadsSame (readBool text) := by
  unfold readBool
  dsimp only
  split
  · exact .ok Scalar.noConfusion
  · split
    · exact .ok Scalar.noConfusion
    · exact .error _

theorem readsSame_int (text : Text) : ReadsSame (readInt text) := by
  refine .bind fun p => ?_
  dsimp only
  split
  iterate 5 exact .bind fun _ => .ok Scalar.noConfusion
  split
  · exact .bind fun _ => .bind fun _ => .ok Scalar.noConfusion
  · exact .bind fun _ => .ok Scalar.noConfusion

theorem readsSame_float (which : Nat) (text : Text) : ReadsSame (readFloat which text) := by
  refine .bind fun p => ?_
  dsimp only
  split
  · exact .ok Scalar.noConfusion
  · split
    · exact .bind fun _ => .ok (Scalar.ofDouble_ne_nan _ _)
    · split
      · exact .bind fun _ => .bind fun _ => .ok (Scalar.ofDouble_ne_nan _ _)
      · exact .bind fun _ => .ok (Scalar.ofDouble_ne_nan _ _)

theorem readsSame_binary (text : Text) : ReadsSame (readBinary text) := by
  unfold readBinary
  dsimp only
  split
  · split
    · exact .ok Scalar.noConfusion
    · exact .error _
  · exact .error _

theorem readsSame_timestamp (text : Text) : ReadsSame (readTimestamp text) := by
  unfold readTimestamp
  split
  · exact .error _
  · split
    · exact .error _
    · exact .ok Scalar.noConfusion
  · split
    · exact .error _
    · exact .ok Scalar.noConfusion

theorem readsSame_scalarOf (which : Nat) (tag : Tag) (text : Text) : ReadsSame (scalarOf which tag text) := by
  unfold scalarOf
  split
  · exact .ok Scalar.noConfusion
  · exact readsSame_bool text
  · exact readsSame_int text
  · exact readsSame_float which text
  · exact readsSame_binary text
  · exact readsSame_timestamp text
  · exact .ok Scalar.noConfusion
  · exact .error _

theorem Yields.lift {x : Except Fault Scalar} (h : ReadsSame x) :
    Yields (fun s => s.same s = true) (x : Read Scalar) := by
  intro r s r' sound run
  cases x with
  | error f => cases run
  | ok t =>
    cases run
    exact ⟨h s rfl, sound⟩

theorem yields_scalar (i : Nat) : Yields (fun s => s.same s = true) (scalar i) := by
  refine (yields_cell i).bind fun c _ => Yields.get.bind fun _ _ =>
    (yields_scalarText _ i).bind fun text _ => ?_
  split
  · exact .throw _
  · exact .lift (readsSame_scalarOf _ _ _)

/-! ### Parts -/

theorem sound_setPart {r : Reader} (sound : r.Sound) (i : Nat) {p : Part} (h : p.Sound) :
    Reader.Sound { r with parts := r.parts.setIfInBounds i (some p) } := by
  intro q mem
  rcases Array.mem_or_eq_of_mem_setIfInBounds mem with old | new
  · exact sound q old
  · cases new
    exact h

theorem yields_setPart (i : Nat) {p : Part} (h : p.Sound) : Yields (fun _ => True) (setPart i p) :=
  Yields.modify fun _ sound => sound_setPart sound i h

theorem sound_emptyPart {t : Tag} {p : Part} (h : emptyPart? t = some p) : p.Sound := by
  cases t <;> cases h <;> simp [Part.Sound]

theorem yields_part (i : Nat) : Yields Part.Sound (part i) := by
  refine Yields.get.bind fun r sound => (yields_cell i).bind fun c _ => ?_
  split
  · next p made => exact .pure (sound p (mem_of_getD made (Option.some_ne_none p).symm))
  · next p made =>
    refine (yields_setPart i (sound_emptyPart made)).bind fun _ _ =>
      Yields.bind (Yields.modify ?_) fun _ _ => .pure (sound_emptyPart made)
    exact fun _ sound => sound
  · refine (yields_scalar i).bind fun s same => ?_
    have sound : (Part.scalar s).Sound := same
    exact (yields_setPart i sound).bind fun _ _ => .pure sound

theorem yields_key (i : Nat) : Yields (fun s => s.same s = true) (key i) := by
  refine (yields_part i).bind fun p sound => ?_
  cases p with
  | scalar s => exact .pure sound
  | _ => exact .throw _

theorem yields_entries (i : Nat) : Yields (fun es => (es.map Prod.fst).Nodup) (entries i) := by
  refine (yields_allPairs i).bind fun ps _ => ?_
  have each (p : Nat × Nat) : Yields (fun e : Scalar × Nat => e.1.same e.1 = true) (do
      let k ← key p.1
      let _ ← part p.2
      return (k, p.2)) :=
    (yields_key p.1).bind fun _ same => (yields_part p.2).bind fun _ _ => .pure same
  exact (Yields.mapM ps fun p _ => each p).bind fun _ same => .pure (nodup_entriesOf same)

theorem yields_onlyPair (i : Nat) : Yields (fun _ => True) (onlyPair i) := by
  refine (yields_cell i).bind fun c _ => ?_
  split
  · exact (yields_part _).bind fun _ _ => (yields_part _).bind fun _ _ => .pure trivial
  · exact .throw _

theorem yields_content (i : Nat) : Yields Part.Sound (content i) := by
  refine (yields_cell i).bind fun c _ => ?_
  split
  · exact (Yields.forM _ fun j _ => (yields_part j).bind fun _ _ => .pure trivial).bind fun _ _ => .pure trivial
  · exact (Yields.mapM _ fun j _ => yields_onlyPair j).bind fun _ _ => .pure trivial
  · exact (Yields.mapM _ fun j _ => yields_onlyPair j).bind fun _ _ => .pure trivial
  · exact (yields_entries i).bind fun _ distinct => .pure distinct
  · exact (yields_entries i).bind fun _ _ => .pure trivial
  · exact .throw _

theorem yields_levels (fuel : Nat) : Yields (fun _ => True) (levels fuel) := by
  induction fuel with
  | zero => exact .pure trivial
  | succ fuel ih =>
    refine Yields.get.bind fun r _ => ?_
    split
    · exact .pure trivial
    · refine Yields.bind (Yields.modify ?_) fun _ _ => ?_
      · exact fun _ sound => sound
      exact (Yields.forM _ fun j _ => (yields_content j).bind fun p sound => yields_setPart j sound).bind
        fun _ _ => ih

theorem yields_whole (root : Nat) : Yields (fun _ => True) (whole root) :=
  (yields_part root).bind fun _ _ => Yields.get.bind fun _ _ => yields_levels _

end Read

end Yaml

/-! ### Whole documents -/

namespace Value

theorem Within.distinct {h : Heap} {i : Nat} (sound : ∀ p ∈ h, p.Sound) {x : Value} (within : Within h i x) :
    x.Distinct := by
  intro entries inside
  cases within with
  | place _ =>
    obtain ⟨es, part, rfl⟩ := entries?_place inside
    have distinct := sound _ (mem_of_getD part Part.noConfusion)
    rw [List.map_map]
    exact distinct
  | pair _ _ => cases inside
  | scalar _ _ => cases inside

end Value

namespace Yaml

open Effect (bind_eq_ok)

theorem Graph.value_eq_ok {g : Graph} {v : Value} (h : g.value = .ok v) :
    ∃ heap : Heap, v = .place heap g.root ∧ ∀ p ∈ heap, p.Sound := by
  unfold value at h
  dsimp only at h
  cases run : (Read.whole g.root).run
      ⟨g.cells, Array.replicate g.cells.size false, Array.replicate g.cells.size none, []⟩ with
  | error f =>
    rw [run] at h
    cases h
  | ok p =>
    rw [run] at h
    cases h
    have start : Reader.Sound
        ⟨g.cells, Array.replicate g.cells.size false, Array.replicate g.cells.size none, []⟩ := by
      intro q mem
      cases (Array.mem_replicate.mp mem).2
    obtain ⟨_, sound⟩ := Read.yields_whole g.root _ _ _ start run
    refine ⟨_, rfl, fun q mem => ?_⟩
    obtain ⟨o, there, rfl⟩ := Array.mem_map.mp mem
    cases o with
    | none => exact Scalar.same_self Scalar.noConfusion
    | some q => exact sound q there

theorem read_eq_ok {content : Bytes} {v : Value} (h : read content = .ok v) :
    v = .scalar .null ∨ ∃ (heap : Heap) (i : Nat), v = .place heap i ∧ ∀ p ∈ heap, p.Sound := by
  unfold read at h
  obtain ⟨c, _, h⟩ := bind_eq_ok h
  obtain ⟨found, _, h⟩ := bind_eq_ok h
  cases found with
  | none =>
    cases h
    exact Or.inl rfl
  | some g =>
    obtain ⟨heap, place, sound⟩ := Graph.value_eq_ok h
    exact Or.inr ⟨heap, g.root, place, sound⟩

/-- No mapping in a document has a key twice. -/
theorem distinct_read {content : Bytes} {v : Value} (h : read content = .ok v) :
    v.Throughout Value.Distinct := by
  rcases read_eq_ok h with rfl | ⟨heap, i, rfl, sound⟩
  · exact .scalar fun _ inside => nomatch inside
  · exact fun x part => ((Value.Within.place .refl).part part).distinct sound

end Yaml

end SqlMigration
