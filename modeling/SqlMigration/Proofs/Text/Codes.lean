import Mathlib.Data.List.Basic
import SqlMigration.Text.Codes

/-!
# Texts and strings

A text is determined by its codes, and a string by the text that it is. A text is
a string exactly when there is no half in it, and these are the texts that can be
encoded.
-/

set_option autoImplicit false

namespace SqlMigration.Text

/-! ### Codes of a text -/

@[simp]
theorem toList_ofList (s : List Code) : (ofList s).toList = s := rfl

@[simp]
theorem ofList_toList (t : Text) : ofList t.toList = t := rfl

theorem toList_inj {s t : Text} : s.toList = t.toList ↔ s = t := by
  constructor
  · intro same
    rw [← ofList_toList s, same, ofList_toList]
  · intro same
    rw [same]

theorem ofList_inj {s t : List Code} : ofList s = ofList t ↔ s = t :=
  ⟨fun same => congrArg toList same, fun same => congrArg ofList same⟩

@[simp]
theorem toList_append (s t : Text) : (s ++ t).toList = s.toList ++ t.toList := rfl

theorem ofList_append (s t : List Code) : ofList (s ++ t) = ofList s ++ ofList t := rfl

@[simp]
theorem toList_singleton (c : Code) : (singleton c).toList = [c] := rfl

@[simp]
theorem toList_empty : ("" : Text).toList = [] := rfl

@[simp]
theorem length_empty : ("" : Text).length = 0 := rfl

theorem append_assoc (s t u : Text) : s ++ t ++ u = s ++ (t ++ u) :=
  toList_inj.mp (List.append_assoc s.toList t.toList u.toList)

theorem empty_append (t : Text) : ("" : Text) ++ t = t := rfl

theorem append_empty (t : Text) : t ++ ("" : Text) = t := toList_inj.mp (List.append_nil t.toList)

theorem append_right_inj (s : Text) {t u : Text} : s ++ t = s ++ u ↔ t = u := by
  rw [← toList_inj, toList_append, toList_append, List.append_cancel_left_eq, toList_inj]

theorem length_toList (t : Text) : t.toList.length = t.length := rfl

@[simp]
theorem length_ofList (s : List Code) : (ofList s).length = s.length := rfl

theorem length_append (s t : Text) : (s ++ t).length = s.length + t.length := List.length_append

theorem toList_eq_nil_iff {t : Text} : t.toList = [] ↔ t = "" := by
  rw [← toList_inj, toList_empty]

theorem length_eq_zero_iff {t : Text} : t.length = 0 ↔ t = "" := by
  rw [length, List.length_eq_zero_iff, toList_eq_nil_iff]

/-! ### Texts without halves -/

theorem ofChars_inj {s t : List Char} : ofChars s = ofChars t ↔ s = t := by
  rw [ofChars, ofChars, ofList_inj]
  exact List.map_inj_right (fun _ _ same => Code.char.inj same)

theorem ofString_inj {s t : String} : (s : Text) = (t : Text) ↔ s = t := by
  rw [ofString, ofString, ofChars_inj, String.toList_inj]

theorem ofString_ofList (s : List Char) : ofString (String.ofList s) = ofChars s := by
  rw [ofString, String.toList_ofList]

/-- No half stands in the text. -/
def Whole (t : Text) : Prop := ∀ c ∈ t.toList, c.isHalf = false

instance (t : Text) : Decidable t.Whole :=
  inferInstanceAs (Decidable (∀ c ∈ t.toList, c.isHalf = false))

theorem strayFrom_eq_none {position : Nat} {s : List Code} :
    strayFrom position s = none ↔ ∀ c ∈ s, c.isHalf = false := by
  induction s generalizing position with
  | nil => simp [strayFrom]
  | cons c s ih =>
    cases c with
    | char c => simp [strayFrom, ih, Code.isHalf]
    | half n => simp [strayFrom, Code.isHalf]

theorem map_filterMap_char? {s : List Code} (whole : ∀ c ∈ s, c.isHalf = false) :
    (s.filterMap Code.char?).map .char = s := by
  induction s with
  | nil => rfl
  | cons c s ih =>
    obtain ⟨first, rest⟩ := List.forall_mem_cons.mp whole
    cases c with
    | char c => exact congrArg (Code.char c :: ·) (ih rest)
    | half n => cases first

theorem whole_ofChars (s : List Char) : (ofChars s).Whole := by
  intro c mem
  obtain ⟨a, _, rfl⟩ := List.mem_map.mp mem
  rfl

theorem whole_ofString (s : String) : (s : Text).Whole := whole_ofChars s.toList

theorem chars_eq_ok_iff {t : Text} {s : List Char} : t.chars = .ok s ↔ t = ofChars s := by
  rw [chars]
  cases stray : strayFrom 0 t.toList with
  | none =>
    have plain : ofChars (t.toList.filterMap Code.char?) = t :=
      toList_inj.mp (map_filterMap_char? (strayFrom_eq_none.mp stray))
    rw [Except.ok.injEq, ← ofChars_inj, plain]
  | some f =>
    refine iff_of_false (by simp) ?_
    rintro rfl
    rw [strayFrom_eq_none.mpr (whole_ofChars s)] at stray
    cases stray

theorem Whole.eq_ofChars {t : Text} (whole : t.Whole) : ∃ s, t = ofChars s :=
  ⟨_, (toList_inj.mp (map_filterMap_char? whole)).symm⟩

theorem string?_eq_some_iff {t : Text} {s : String} : t.string? = some s ↔ t = s := by
  rw [string?, ofString, ← chars_eq_ok_iff]
  cases t.chars with
  | error f => simp [Except.toOption]
  | ok cs => simp [Except.toOption, ← String.toList_inj]

theorem string_eq_ok_iff {t : Text} {s : String} : t.string = .ok s ↔ t = s := by
  rw [← string?_eq_some_iff, string]
  cases t.string? with
  | none => simp
  | some u => simp

theorem string_eq_error_iff {t u : Text} : t.string = .error u ↔ u = t ∧ ¬ t.Whole := by
  cases read : t.string with
  | ok s =>
    rw [string_eq_ok_iff.mp read]
    simp [whole_ofString]
  | error v =>
    have half : ¬ t.Whole := by
      intro whole
      obtain ⟨s, rfl⟩ := whole.eq_ofChars
      rw [← ofString_ofList, string_eq_ok_iff.mpr rfl] at read
      cases read
    have same : v = t := by
      rw [string] at read
      split at read <;> cases read
      rfl
    simp [half, same, eq_comm]

theorem encode_eq_ok_iff {t : Text} {b : Bytes} :
    t.encode = .ok b ↔ ∃ s, t = ofChars s ∧ Utf8.encode s = b := by
  simp only [← chars_eq_ok_iff]
  rw [encode]
  cases t.chars with
  | error f => simp [Except.map]
  | ok cs => simp [Except.map]

theorem Whole.encode_isSome {t : Text} (whole : t.Whole) : t.encode.toOption.isSome = true := by
  obtain ⟨s, rfl⟩ := whole.eq_ofChars
  rw [encode_eq_ok_iff.mpr ⟨s, rfl, rfl⟩]
  rfl

end SqlMigration.Text
