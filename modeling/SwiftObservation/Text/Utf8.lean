import SwiftObservation.Text.Basic

/-!
# UTF-8

Texts are stored in UTF-8. Decoding is strict: overlong forms, surrogates and code points beyond the last plane are
refused, and a refusal tells the bytes it is about. They are the first byte of the broken character together with the
bytes behind it that could have belonged to it.
-/

namespace SwiftObservation

/-- The contents of a file. -/
abbrev Bytes := List UInt8

namespace Text

/-- The text in UTF-8. -/
def encode (s : Text) : Bytes := s.flatMap String.utf8EncodeChar

/-- What is wrong with a sequence of bytes. -/
inductive DecodeFlaw where
  /-- The byte begins no character. -/
  | invalidStart
  /-- The next byte does not continue the character. -/
  | invalidContinuation
  /-- The bytes end within a character. -/
  | unexpectedEnd
deriving DecidableEq, Repr

/-- Bytes that are no UTF-8: the flaw, the offset and value of the first byte, and how many bytes it is about. -/
structure DecodeError where
  flaw : DecodeFlaw
  offset : Nat
  first : UInt8
  count : Nat
deriving DecidableEq, Repr

/-- A character of which some bytes are known: how many there are and where the first one is, how many are to come,
the range of the next one, and the bits collected. -/
structure Partial where
  offset : Nat
  first : UInt8
  count : Nat
  missing : Nat
  low : Nat
  high : Nat
  bits : Nat

/-- The character that begins with a byte of several, if one does. -/
def Partial.ofFirst? (offset : Nat) (b : UInt8) : Option Partial :=
  let n := b.toNat
  if 0xC2 ≤ n && n ≤ 0xDF then some ⟨offset, b, 1, 1, 0x80, 0xBF, n - 0xC0⟩
  else if 0xE0 ≤ n && n ≤ 0xEF then
    some ⟨offset, b, 1, 2, if n == 0xE0 then 0xA0 else 0x80, if n == 0xED then 0x9F else 0xBF, n - 0xE0⟩
  else if 0xF0 ≤ n && n ≤ 0xF4 then
    some ⟨offset, b, 1, 3, if n == 0xF0 then 0x90 else 0x80, if n == 0xF4 then 0x8F else 0xBF, n - 0xF0⟩
  else none

/-- The refusal of a partly known character. -/
def Partial.refuse (p : Partial) (flaw : DecodeFlaw) : DecodeError := ⟨flaw, p.offset, p.first, p.count⟩

/-- The text of the bytes from an offset on, behind a text kept last first and perhaps a partly known character. -/
def decodeFrom : (offset : Nat) → (pending : Option Partial) → (reversed : Text) → Bytes → Except DecodeError Text
  | _, none, reversed, [] => .ok reversed.reverse
  | _, some p, _, [] => .error (p.refuse .unexpectedEnd)
  | offset, none, reversed, b :: rest =>
    if b.toNat < 0x80 then decodeFrom (offset + 1) none (Char.ofNat b.toNat :: reversed) rest
    else
      match Partial.ofFirst? offset b with
      | some p => decodeFrom (offset + 1) (some p) reversed rest
      | none => .error ⟨.invalidStart, offset, b, 1⟩
  | offset, some p, reversed, b :: rest =>
    if p.low ≤ b.toNat && b.toNat ≤ p.high then
      let bits := p.bits * 64 + (b.toNat - 0x80)
      if p.missing ≤ 1 then decodeFrom (offset + 1) none (Char.ofNat bits :: reversed) rest
      else
        decodeFrom (offset + 1)
          (some { p with count := p.count + 1, missing := p.missing - 1, low := 0x80, high := 0xBF, bits }) reversed rest
    else .error (p.refuse .invalidContinuation)

/-- The text of UTF-8 bytes. -/
def decode (bytes : Bytes) : Except DecodeError Text := decodeFrom 0 none [] bytes

/-- A number in hexadecimal, filled up with zeros to a width. -/
def ofHex (width n : Nat) : Text :=
  let digits := Nat.toDigits 16 n
  List.replicate (width - digits.length) '0' ++ digits

def DecodeFlaw.message : DecodeFlaw → Text
  | invalidStart => "invalid start byte".toList
  | invalidContinuation => "invalid continuation byte".toList
  | unexpectedEnd => "unexpected end of data".toList

end Text

end SwiftObservation
