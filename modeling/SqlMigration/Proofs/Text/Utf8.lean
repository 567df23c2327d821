import Mathlib.Tactic.SplitIfs
import SqlMigration.Text.Utf8

/-!
# Reading back what was written

Whatever text is written as bytes is read back as the same text, and no other
bytes can be read. For each character the first byte tells how many bytes follow
it, the bytes that follow stay within their bounds, and together they give the
character's number.
-/

set_option autoImplicit false

namespace SqlMigration.Utf8

theorem followers_eq (b : UInt8) : followers b =
    if b.toNat < 0x80 then some 0 else if b.toNat < 0xC2 then none
    else if b.toNat < 0xE0 then some 1 else if b.toNat < 0xF0 then some 2
    else if b.toNat < 0xF5 then some 3 else none := by
  simp [followers, UInt8.lt_iff_toNat_lt]

def SecondFits (first second : Nat) : Prop :=
  (if first = 0xE0 then 0xA0 else if first = 0xF0 then 0x90 else 0x80) ≤ second ∧
    second ≤ (if first = 0xED then 0x9F else if first = 0xF4 then 0x8F else 0xBF)

theorem secondBounds_fit {a b : UInt8} (h : SecondFits a.toNat b.toNat) :
    (secondBounds a).1 ≤ b ∧ b ≤ (secondBounds a).2 := by
  have key : ∀ k : UInt8, (a = k ↔ a.toNat = k.toNat) := fun k => UInt8.toNat_inj.symm
  simp only [SecondFits] at h
  simp only [secondBounds, key, UInt8.le_iff_toNat_le, UInt8.reduceToNat]
  split_ifs at h ⊢ <;> simp_all

theorem tail_fits {b : UInt8} (h : 0x80 ≤ b.toNat ∧ b.toNat ≤ 0xBF) :
    (0x80 : UInt8) ≤ b ∧ b ≤ 0xBF := by
  simpa [UInt8.le_iff_toNat_le] using h

theorem decodeFrom_skip (position : Nat) (bs rest : Bytes) :
    decodeFrom position bs.length (bs ++ rest) = decodeFrom (position + bs.length) 0 rest := by
  induction bs generalizing position with
  | nil => rfl
  | cons b bs ih =>
    have hp : position + (b :: bs).length = position + 1 + bs.length := by
      rw [List.length_cons]
      omega
    rw [hp]
    exact ih (position + 1)

theorem decodeFrom_sequence {b : UInt8} (bs : Bytes) {c : Char} {rest : Bytes} {s : List Char}
    (hf : followers b = some bs.length) (hm : misfit (secondBounds b) bs.length (bs ++ rest) = none)
    (hc : codePoint (b :: (bs ++ rest)) = c.toNat) (hr : ∀ position, decodeFrom position 0 rest = .ok s)
    (position : Nat) : decodeFrom position 0 (b :: (bs ++ rest)) = .ok (c :: s) := by
  have ok : fault? position (b :: (bs ++ rest)) = none := by simp [fault?, hf, hm]
  simp only [decodeFrom, ok, hf, hc, Option.getD_some, decodeFrom_skip, hr, Char.ofNat_toNat]
  rfl

theorem misfit_cons {bounds : UInt8 × UInt8} {n : Nat} {b : UInt8} {bs : Bytes}
    (hb : bounds.1 ≤ b ∧ b ≤ bounds.2) (hr : misfit (0x80, 0xBF) n bs = none) :
    misfit bounds (n + 1) (b :: bs) = none := by
  simp [misfit, hb, hr]

theorem decodeFrom_char (c : Char) {rest : Bytes} {s : List Char}
    (hr : ∀ position, decodeFrom position 0 rest = .ok s) (position : Nat) :
    decodeFrom position 0 (String.utf8EncodeChar c ++ rest) = .ok (c :: s) := by
  have valid : c.toNat < 0xD800 ∨ 0xDFFF < c.toNat ∧ c.toNat < 0x110000 := c.valid
  have byte : ∀ n < 256, (UInt8.ofNat n).toNat = n := fun n hn => by simp; omega
  have val : c.val.toNat = c.toNat := rfl
  simp only [String.utf8EncodeChar, val]
  generalize hv : c.toNat = v at valid
  have last := byte (v % 0x40 + 0x80) (by omega)
  split_ifs with h1 h2 h3
  · have b0 := byte v (by omega)
    have hf : followers (UInt8.ofNat v) = some 0 := by
      rw [followers_eq, b0, if_pos (by omega)]
    refine decodeFrom_sequence [] hf rfl ?_ hr position
    simp only [codePoint, hf, b0, hv]
  · have b0 := byte (v / 64 % 0x20 + 0xc0) (by omega)
    have hf : followers (UInt8.ofNat (v / 64 % 0x20 + 0xc0)) = some 1 := by
      rw [followers_eq, b0, if_neg (by omega), if_neg (by omega), if_pos (by omega)]
    have fits : SecondFits (v / 64 % 0x20 + 0xc0) (v % 0x40 + 0x80) := by
      constructor <;> split_ifs <;> omega
    refine decodeFrom_sequence [_] hf ?_ ?_ hr position
    · exact misfit_cons (secondBounds_fit (by rwa [b0, last])) rfl
    · simp only [codePoint, hf, List.cons_append, b0, last, hv]
      omega
  · have b0 := byte (v / 4096 % 0x10 + 0xe0) (by omega)
    have b1 := byte (v / 64 % 0x40 + 0x80) (by omega)
    have hf : followers (UInt8.ofNat (v / 4096 % 0x10 + 0xe0)) = some 2 := by
      rw [followers_eq, b0, if_neg (by omega), if_neg (by omega), if_neg (by omega),
        if_pos (by omega)]
    have fits : SecondFits (v / 4096 % 0x10 + 0xe0) (v / 64 % 0x40 + 0x80) := by
      constructor <;> split_ifs <;> omega
    refine decodeFrom_sequence [_, _] hf ?_ ?_ hr position
    · exact misfit_cons (secondBounds_fit (by rwa [b0, b1]))
        (misfit_cons (tail_fits (by rw [last]; omega)) rfl)
    · simp only [codePoint, hf, List.cons_append, b0, b1, last, hv]
      omega
  · have b0 := byte (v / 262144 % 0x08 + 0xf0) (by omega)
    have b1 := byte (v / 4096 % 0x40 + 0x80) (by omega)
    have b2 := byte (v / 64 % 0x40 + 0x80) (by omega)
    have hf : followers (UInt8.ofNat (v / 262144 % 0x08 + 0xf0)) = some 3 := by
      rw [followers_eq, b0, if_neg (by omega), if_neg (by omega), if_neg (by omega),
        if_neg (by omega), if_pos (by omega)]
    have fits : SecondFits (v / 262144 % 0x08 + 0xf0) (v / 4096 % 0x40 + 0x80) := by
      constructor <;> split_ifs <;> omega
    refine decodeFrom_sequence [_, _, _] hf ?_ ?_ hr position
    · exact misfit_cons (secondBounds_fit (by rwa [b0, b1]))
        (misfit_cons (tail_fits (by rw [b2]; omega)) (misfit_cons (tail_fits (by rw [last]; omega)) rfl))
    · simp only [codePoint, hf, List.cons_append, b0, b1, b2, last, hv]
      omega

theorem decode_encode (s : List Char) : decode (encode s) = .ok s := by
  have all : ∀ position, decodeFrom position 0 (encode s) = .ok s := by
    induction s with
    | nil => intro position; rfl
    | cons c s ih => exact decodeFrom_char c ih
  exact all 0

/-! ### Bytes that can be read -/

theorem toNat_val_ofNat {n : Nat} (valid : n < 0xD800 ∨ 0xDFFF < n ∧ n < 0x110000) :
    (Char.ofNat n).val.toNat = n := by
  have ok : n.isValidChar := valid
  rw [Char.ofNat, dif_pos ok]
  rfl

theorem fits_secondBounds {a b : UInt8} (h : (secondBounds a).1 ≤ b ∧ b ≤ (secondBounds a).2) :
    SecondFits a.toNat b.toNat := by
  have key : ∀ k : UInt8, (a = k ↔ a.toNat = k.toNat) := fun k => UInt8.toNat_inj.symm
  simp only [secondBounds, key, UInt8.le_iff_toNat_le, UInt8.reduceToNat] at h
  simp only [SecondFits]
  split_ifs at h ⊢ <;> simp_all

theorem fits_tail {b : UInt8} (h : (0x80 : UInt8) ≤ b ∧ b ≤ 0xBF) : 0x80 ≤ b.toNat ∧ b.toNat ≤ 0xBF := by
  simpa [UInt8.le_iff_toNat_le] using h

theorem followers_of_misfit {bounds : UInt8 × UInt8} {n : Nat} {bs : Bytes} (h : misfit bounds (n + 1) bs = none) :
    ∃ b rest, bs = b :: rest ∧ (bounds.1 ≤ b ∧ b ≤ bounds.2) ∧ misfit (0x80, 0xBF) n rest = none := by
  cases bs with
  | nil => cases h
  | cons b rest =>
    rw [misfit] at h
    split at h
    · next fits => exact ⟨b, rest, rfl, fits, Option.map_eq_none_iff.mp h⟩
    · cases h

def sequence (n : Nat) : List Nat :=
  if n ≤ 0x7f then [n]
  else if n ≤ 0x7ff then [n / 64 % 0x20 + 0xc0, n % 0x40 + 0x80]
  else if n ≤ 0xffff then [n / 4096 % 0x10 + 0xe0, n / 64 % 0x40 + 0x80, n % 0x40 + 0x80]
  else [n / 262144 % 0x08 + 0xf0, n / 4096 % 0x40 + 0x80, n / 64 % 0x40 + 0x80, n % 0x40 + 0x80]

theorem encodeChar_ofNat {n : Nat} (valid : n < 0xD800 ∨ 0xDFFF < n ∧ n < 0x110000) {bs : Bytes}
    (same : bs.map UInt8.toNat = sequence n) : String.utf8EncodeChar (Char.ofNat n) = bs := by
  refine (List.map_inj_right (fun _ _ => UInt8.toNat_inj.mp)).mp ?_
  rw [same, sequence]
  simp only [String.utf8EncodeChar, toNat_val_ofNat valid]
  split_ifs <;> simp <;> omega

theorem encodeChar_codePoint {position : Nat} {b : UInt8} {bs : Bytes}
    (fine : fault? position (b :: bs) = none) :
    ∃ n, followers b = some n ∧
      String.utf8EncodeChar (Char.ofNat (codePoint (b :: bs))) = b :: bs.take n := by
  rw [fault?] at fine
  cases hf : followers b with
  | none =>
    rw [hf] at fine
    cases fine
  | some n =>
    rw [hf] at fine
    have misfit := Option.map_eq_none_iff.mp fine
    refine ⟨n, rfl, ?_⟩
    have bounds := hf
    rw [followers_eq] at bounds
    split_ifs at bounds with h0 h1 h2 h3 h4 <;> cases bounds
    · simp only [codePoint, hf]
      refine encodeChar_ofNat (by omega) ?_
      rw [sequence, if_pos (by omega), List.take_zero, List.map_singleton]
    · obtain ⟨c, rest, rfl, second, _⟩ := followers_of_misfit misfit
      have fits := fits_secondBounds second
      simp only [codePoint, hf, SecondFits] at fits ⊢
      refine encodeChar_ofNat (by split_ifs at fits <;> omega) ?_
      rw [sequence, if_neg (by split_ifs at fits <;> omega), if_pos (by omega)]
      simp only [List.take_succ_cons, List.take_zero, List.map_cons, List.map_nil, List.cons.injEq, and_true]
      split_ifs at fits <;> omega
    · obtain ⟨c, rest, rfl, second, more⟩ := followers_of_misfit misfit
      obtain ⟨d, rest, rfl, third, _⟩ := followers_of_misfit more
      have fits := fits_secondBounds second
      have tail := fits_tail third
      simp only [codePoint, hf, SecondFits] at fits ⊢
      refine encodeChar_ofNat (by split_ifs at fits <;> omega) ?_
      rw [sequence, if_neg (by split_ifs at fits <;> omega), if_neg (by split_ifs at fits <;> omega),
        if_pos (by omega)]
      simp only [List.take_succ_cons, List.take_zero, List.map_cons, List.map_nil, List.cons.injEq, and_true]
      split_ifs at fits <;> omega
    · obtain ⟨c, rest, rfl, second, more⟩ := followers_of_misfit misfit
      obtain ⟨d, rest, rfl, third, more⟩ := followers_of_misfit more
      obtain ⟨e, rest, rfl, fourth, _⟩ := followers_of_misfit more
      have fits := fits_secondBounds second
      have tail := fits_tail third
      have last := fits_tail fourth
      simp only [codePoint, hf, SecondFits] at fits ⊢
      refine encodeChar_ofNat (by split_ifs at fits <;> omega) ?_
      rw [sequence, if_neg (by split_ifs at fits <;> omega), if_neg (by split_ifs at fits <;> omega),
        if_neg (by split_ifs at fits <;> omega)]
      simp only [List.take_succ_cons, List.take_zero, List.map_cons, List.map_nil, List.cons.injEq, and_true]
      split_ifs at fits <;> omega

theorem decodeFrom_eq_ok {position skip : Nat} {bs : Bytes} {s : List Char}
    (h : decodeFrom position skip bs = .ok s) : bs.drop skip = encode s := by
  induction bs generalizing position skip s with
  | nil =>
    cases h
    exact List.drop_nil
  | cons b bs ih =>
    cases skip with
    | succ k => exact ih h
    | zero =>
      rw [decodeFrom] at h
      cases fine : fault? position (b :: bs) with
      | some f =>
        rw [fine] at h
        cases h
      | none =>
        rw [fine] at h
        obtain ⟨n, hf, char⟩ := encodeChar_codePoint fine
        rw [hf, Option.getD_some] at h
        cases rest : decodeFrom (position + 1) n bs with
        | error f =>
          rw [rest] at h
          cases h
        | ok t =>
          rw [rest] at h
          cases h
          rw [List.drop_zero, encode, List.flatMap_cons, char, ← encode, ← ih rest, List.cons_append,
            List.take_append_drop]

/-- Bytes can be read exactly when they are written text. -/
theorem decode_eq_ok_iff {bs : Bytes} {s : List Char} : decode bs = .ok s ↔ bs = encode s := by
  constructor
  · exact decodeFrom_eq_ok
  · rintro rfl
    exact decode_encode s

end SqlMigration.Utf8
