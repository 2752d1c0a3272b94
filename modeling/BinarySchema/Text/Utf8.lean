/-
# Text as bytes

A text is stored as its UTF-8 bytes.  Reading bytes as text never fails: each longest run of bytes
that begins a character but does not complete it, and each byte that begins none, reads as the
replacement character.
-/
import BinarySchema.Bytes

namespace BinarySchema

namespace Text

/-- The UTF-8 bytes of a text. -/
def utf8 (s : String) : Bytes := s.toList.flatMap String.utf8EncodeChar

/-- The character that stands for bytes that are no text. -/
def replacement : Char := '\uFFFD'

/-- A character of which some bytes have been read and some are still to come. -/
structure PartialChar where
  /-- The number of bytes still to come. -/
  missing : Nat
  /-- The least byte that may come next. -/
  low : UInt8
  /-- The greatest byte that may come next. -/
  high : UInt8
  /-- The code point so far. -/
  point : Nat
  deriving DecidableEq, Repr

namespace PartialChar

/-- The character that a byte begins, if more bytes belong to it.  The bounds on the second byte
keep out overlong forms, surrogates and code points beyond the last. -/
def start? (b : UInt8) : Option PartialChar :=
  let n := b.toNat
  if 0xC2 ≤ n ∧ n ≤ 0xDF then some ⟨1, 0x80, 0xBF, n - 0xC0⟩
  else if n = 0xE0 then some ⟨2, 0xA0, 0xBF, 0⟩
  else if n = 0xED then some ⟨2, 0x80, 0x9F, 0xD⟩
  else if 0xE1 ≤ n ∧ n ≤ 0xEF then some ⟨2, 0x80, 0xBF, n - 0xE0⟩
  else if n = 0xF0 then some ⟨3, 0x90, 0xBF, 0⟩
  else if n = 0xF4 then some ⟨3, 0x80, 0x8F, 4⟩
  else if 0xF1 ≤ n ∧ n ≤ 0xF3 then some ⟨3, 0x80, 0xBF, n - 0xF0⟩
  else none

/-- Takes a continuation byte. -/
def push (p : PartialChar) (b : UInt8) : PartialChar :=
  ⟨p.missing - 1, 0x80, 0xBF, p.point * 64 + (b.toNat - 0x80)⟩

end PartialChar

/-- What a byte means between characters: a character of its own, the beginning of one, or a byte
that is no text. -/
def begin (b : UInt8) : List Char × Option PartialChar :=
  if b.toNat < 0x80 then ([Char.ofNat b.toNat], none)
  else
    match PartialChar.start? b with
    | some p => ([], some p)
    | none => ([replacement], none)

/-- Reads bytes as text, a character being under way or not. -/
def decodeFrom : Option PartialChar → Bytes → List Char
  | none, [] => []
  | some _, [] => [replacement]
  | none, b :: rest =>
    let (out, next) := begin b
    out ++ decodeFrom next rest
  | some p, b :: rest =>
    if p.low ≤ b ∧ b ≤ p.high then
      let p := p.push b
      if p.missing = 0 then Char.ofNat p.point :: decodeFrom none rest
      else decodeFrom (some p) rest
    else
      let (out, next) := begin b
      replacement :: (out ++ decodeFrom next rest)

/-- The text that bytes hold. -/
def ofUtf8 (b : Bytes) : String := String.ofList (decodeFrom none b)

end Text

end BinarySchema
