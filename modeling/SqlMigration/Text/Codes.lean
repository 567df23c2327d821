import SqlMigration.Text.Utf8

/-!
# Texts

A text is a list of codes. A code is a character, or one half of a surrogate pair
that an escape has spelled without the other. A half is compared, matched and
quoted like any character, but nothing encodes it: a text that holds one can be
neither written to a file nor sent.
-/

set_option autoImplicit false

namespace SqlMigration

inductive Code where
  | char (c : Char)
  | half (n : Fin 0x800)
  deriving DecidableEq, Repr

namespace Code

instance : Coe Char Code := ⟨.char⟩

def toNat : Code → Nat
  | .char c => c.toNat
  | .half n => 0xD800 + n

def ofNat (n : Nat) : Code :=
  if h : 0xD800 ≤ n ∧ n < 0xE000 then .half ⟨n - 0xD800, by omega⟩ else .char (Char.ofNat n)

instance : LE Code := ⟨fun a b => a.toNat ≤ b.toNat⟩

instance : LT Code := ⟨fun a b => a.toNat < b.toNat⟩

instance (a b : Code) : Decidable (a ≤ b) := inferInstanceAs (Decidable (a.toNat ≤ b.toNat))

instance (a b : Code) : Decidable (a < b) := inferInstanceAs (Decidable (a.toNat < b.toNat))

def char? : Code → Option Char
  | .char c => some c
  | .half _ => none

/-- A half looks like no character that has a meaning of its own. -/
def face : Code → Char
  | .char c => c
  | .half _ => '�'

def isHalf : Code → Bool
  | .char _ => false
  | .half _ => true

end Code

structure Text where
  ofList ::
  toList : List Code
  deriving DecidableEq, Repr

/-- Halves that stand in a row: `count` of them from position `first` on, of which `half` is the first. -/
structure Stray where
  first : Nat
  count : Nat
  half : Fin 0x800
  deriving DecidableEq, Repr

def Stray.message (s : Stray) : String :=
  let place :=
    if s.count = 1 then
      let digits := String.ofList (Nat.toDigits 16 (0xD800 + s.half))
      "character '\\u" ++ digits ++ "' in position " ++ toString s.first
    else "characters in position " ++ toString s.first ++ "-" ++ toString (s.first + s.count - 1)
  "'utf-8' codec can't encode " ++ place ++ ": surrogates not allowed"

namespace Text

def ofChars (s : List Char) : Text := .ofList (s.map .char)

def ofString (s : String) : Text := .ofChars s.toList

instance : Coe String Text := ⟨ofString⟩

instance : Append Text := ⟨fun s t => .ofList (s.toList ++ t.toList)⟩

def length (t : Text) : Nat := t.toList.length

def singleton (c : Code) : Text := .ofList [c]

def intercalate (separator : Text) (texts : List Text) : Text :=
  .ofList (separator.toList.intercalate (texts.map toList))

instance : LT Text := ⟨fun s t => s.toList < t.toList⟩

instance (s t : Text) : Decidable (s < t) := inferInstanceAs (Decidable (s.toList < t.toList))

def strayFrom (position : Nat) : List Code → Option Stray
  | [] => none
  | .char _ :: rest => strayFrom (position + 1) rest
  | .half n :: rest => some ⟨position, (rest.takeWhile Code.isHalf).length + 1, n⟩

def chars (t : Text) : Except Stray (List Char) :=
  match strayFrom 0 t.toList with
  | some s => .error s
  | none => .ok (t.toList.filterMap Code.char?)

def string? (t : Text) : Option String := t.chars.toOption.map String.ofList

/-- The text as a string, or the text itself when it holds a half. -/
def string (t : Text) : Except Text String :=
  match t.string? with
  | some s => .ok s
  | none => .error t

def encode (t : Text) : Except Stray Bytes := t.chars.map Utf8.encode

end Text

end SqlMigration
