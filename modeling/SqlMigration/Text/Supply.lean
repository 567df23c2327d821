import SqlMigration.Text.Newline
import SqlMigration.Text.Utf8

/-!
# Text taken from bytes in blocks

A reader of a long text asks for a block of characters at a time. The bytes are
taken in pieces and decoded piece by piece; a character cut by the end of a piece
is completed from the next one, and a carriage return there waits to see whether
a line feed follows. So a fault is met only when the block is asked for that it
prevents, and its position counts from the start of its piece.
-/

set_option autoImplicit false

namespace SqlMigration

/-- `taken` bytes were taken for the last piece, and `given` characters came out of it. -/
structure Supply where
  bytes : Bytes
  held : Bytes
  heldReturn : Bool
  ready : List Char
  taken : Nat
  given : Nat

namespace Supply

def ofBytes (b : Bytes) : Supply := ⟨b, [], false, [], 0, 0⟩

def pieceSize : Nat := 8192

def blockSize : Nat := 4096

/-- Decodes a piece up to a character that its end cuts; nothing may be cut by the end of all. -/
def decodePiece (final : Bool) (piece : Bytes) : Except Utf8.Fault (List Char × Bytes) :=
  match Utf8.decode piece with
  | .ok s => .ok (s, [])
  | .error f =>
    if f.reason = .truncated ∧ !final then do
      return (← Utf8.decode (piece.take f.first), piece.drop f.first)
    else .error f

def pull (s : Supply) (wanted : Nat) : Except Utf8.Fault Supply := do
  let guess := if s.given = 0 then 0 else wanted * s.taken / s.given
  let piece := s.bytes.take (max pieceSize guess)
  let final := piece.isEmpty
  let (chars, held) ← decodePiece final (s.held ++ piece)
  let waiting := s.heldReturn && chars.isEmpty && !final
  let chars := if s.heldReturn && !waiting then '\r' :: chars else chars
  let keep := chars.getLast? = some '\r' && !final
  let chars := Newline.unify (if keep then chars.dropLast else chars)
  return { bytes := s.bytes.drop piece.length, held := held, heldReturn := waiting || keep,
           ready := s.ready ++ chars, taken := piece.length, given := chars.length }

def fill : Nat → Supply → Except Utf8.Fault Supply
  | 0, s => .ok s
  | fuel + 1, s =>
    if blockSize ≤ s.ready.length then .ok s
    else do
      let after ← s.pull (blockSize - s.ready.length)
      if after.taken = 0 then return after else fill fuel after

def blocks : Nat → Supply → List Char × Option Utf8.Fault
  | 0, _ => ([], none)
  | fuel + 1, s =>
    match fill (s.bytes.length + 2) s with
    | .error f => ([], some f)
    | .ok s =>
      if s.ready.isEmpty then ([], none)
      else
        let (more, f) := blocks fuel { s with ready := s.ready.drop blockSize }
        (s.ready.take blockSize ++ more, f)

end Supply

def textInBlocks (b : Bytes) : List Char × Option Utf8.Fault :=
  Supply.blocks (b.length + 2) (Supply.ofBytes b)

end SqlMigration
