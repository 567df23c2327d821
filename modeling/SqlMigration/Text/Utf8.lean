/-!
# Text as bytes

Writing text is always possible. Reading stops at the first sequence of bytes
that encodes no character and tells where it stands, how far the attempt went
and what was wrong.
-/

set_option autoImplicit false

namespace SqlMigration

abbrev Bytes := List UInt8

namespace Utf8

def encode (s : List Char) : Bytes := s.flatMap String.utf8EncodeChar

inductive Reason where
  | start
  | continuation
  | truncated
  deriving DecidableEq, Repr

/-- A fault covers `count` bytes from position `first` on; `byte` is the first of them. -/
structure Fault where
  first : Nat
  count : Nat
  byte : UInt8
  reason : Reason
  deriving DecidableEq, Repr

/-- The bounds of the second byte of a sequence that starts with the given byte. -/
def secondBounds (b : UInt8) : UInt8 × UInt8 :=
  if b = 0xE0 then (0xA0, 0xBF)
  else if b = 0xED then (0x80, 0x9F)
  else if b = 0xF0 then (0x90, 0xBF)
  else if b = 0xF4 then (0x80, 0x8F)
  else (0x80, 0xBF)

def followers (b : UInt8) : Option Nat :=
  if b < 0x80 then some 0
  else if b < 0xC2 then none
  else if b < 0xE0 then some 1
  else if b < 0xF0 then some 2
  else if b < 0xF5 then some 3
  else none

/-- How many bytes of a sequence fit before the first misfit, `none` when all `n` followers fit. -/
def misfit (bounds : UInt8 × UInt8) : Nat → Bytes → Option (Nat × Reason)
  | 0, _ => none
  | _ + 1, [] => some (0, .truncated)
  | n + 1, b :: bs =>
    if bounds.1 ≤ b ∧ b ≤ bounds.2 then
      (misfit (0x80, 0xBF) n bs).map (fun p => (p.1 + 1, p.2))
    else some (0, .continuation)

def fault? (position : Nat) : Bytes → Option Fault
  | [] => none
  | b :: bs =>
    match followers b with
    | none => some ⟨position, 1, b, .start⟩
    | some n => (misfit (secondBounds b) n bs).map (fun p => ⟨position, p.1 + 1, b, p.2⟩)

def codePoint : Bytes → Nat
  | [] => 0
  | b :: bs =>
    let low (b : UInt8) : Nat := b.toNat % 64
    match followers b, bs with
    | some 1, c :: _ => (b.toNat % 32) * 64 + low c
    | some 2, c :: d :: _ => ((b.toNat % 16) * 64 + low c) * 64 + low d
    | some 3, c :: d :: e :: _ => (((b.toNat % 8) * 64 + low c) * 64 + low d) * 64 + low e
    | _, _ => b.toNat

/-- Reads from `position` on, after passing over the `skip` followers of the last character. -/
def decodeFrom (position skip : Nat) : Bytes → Except Fault (List Char)
  | [] => .ok []
  | b :: bs =>
    match skip with
    | k + 1 => decodeFrom (position + 1) k bs
    | 0 =>
      match fault? position (b :: bs) with
      | some f => .error f
      | none => do
        let rest ← decodeFrom (position + 1) ((followers b).getD 0) bs
        return Char.ofNat (codePoint (b :: bs)) :: rest

def decode (bytes : Bytes) : Except Fault (List Char) := decodeFrom 0 0 bytes

def hexDigit (n : Nat) : Char := (Nat.toDigits 16 n).headD '0'

def Reason.message : Reason → String
  | .start => "invalid start byte"
  | .continuation => "invalid continuation byte"
  | .truncated => "unexpected end of data"

def Fault.message (f : Fault) : String :=
  let place :=
    if f.count = 1 then
      let high := (hexDigit (f.byte.toNat / 16)).toString
      let low := (hexDigit (f.byte.toNat % 16)).toString
      "byte 0x" ++ high ++ low ++ " in position " ++ toString f.first
    else
      "bytes in position " ++ toString f.first ++ "-" ++ toString (f.first + f.count - 1)
  "'utf-8' codec can't decode " ++ place ++ ": " ++ f.reason.message

end Utf8

end SqlMigration
