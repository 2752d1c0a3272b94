/-
# Byte strings

A byte string is a list of bytes.  This module holds the spans that address parts of one, the two
ways to change a part in place, and little-endian numbers.

Reading a part of a byte string never fails: what lies past the end is simply not there.  Changing
a part keeps the length, as long as the new bytes are as many as the old ones.
-/

namespace BinarySchema

/-- A string of bytes. -/
abbrev Bytes := List UInt8

/-- The byte string of `n` zeros. -/
def zeros (n : Nat) : Bytes := List.replicate n 0

/-! ## Spans -/

/-- A run of consecutive positions in a byte string. -/
structure Span where
  /-- The first position. -/
  start : Nat
  /-- The number of positions. -/
  length : Nat
  deriving DecidableEq, Repr

namespace Span

/-- The first position after the span. -/
def stop (s : Span) : Nat := s.start + s.length

/-- The span from `start` up to `stop`, if that holds at least one position. -/
def between? (start stop : Nat) : Option Span :=
  if start < stop then some ⟨start, stop - start⟩ else none

/-- A span fits a byte string when it ends inside it. -/
def Fits (s : Span) (b : Bytes) : Prop := s.stop ≤ b.length

instance (s : Span) (b : Bytes) : Decidable (s.Fits b) :=
  inferInstanceAs (Decidable (s.stop ≤ b.length))

/-- The bytes of `b` under the span, as far as `b` reaches. -/
def slice (s : Span) (b : Bytes) : Bytes := (b.drop s.start).take s.length

/-- The bytes of `b` under the span, if it fits. -/
def slice? (s : Span) (b : Bytes) : Option Bytes :=
  if s.Fits b then some (s.slice b) else none

/-- Replaces the bytes of `b` under the span by `new`. -/
def splice (s : Span) (b new : Bytes) : Bytes := b.take s.start ++ new ++ b.drop s.stop

/-- Rewrites the bytes of `b` under the span by `f`. -/
def modify (s : Span) (f : Bytes → Bytes) (b : Bytes) : Bytes := s.splice b (f (s.slice b))

end Span

/-! ## Rewriting from the front -/

/-- Puts `new` over the front of `b`, as far as `b` reaches, and keeps the rest. -/
def overlay (new b : Bytes) : Bytes := new.take b.length ++ b.drop new.length

/-- Rewrites the first `n` bytes of `b` by `f` and keeps the rest. -/
def onFront (n : Nat) (f : Bytes → Bytes) (b : Bytes) : Bytes := f (b.take n) ++ b.drop n

/-- Rewrites consecutive slots of `stride` bytes, the first by the first function, the second by
the second, and keeps what follows the last slot. -/
def onSlots (stride : Nat) : List (Bytes → Bytes) → Bytes → Bytes
  | [], b => b
  | f :: fs, b => f (b.take stride) ++ onSlots stride fs (b.drop stride)

/-! ## Little-endian numbers -/

namespace LittleEndian

/-- The `width` lowest bytes of `n`, least significant first. -/
def encode : (width : Nat) → Nat → Bytes
  | 0, _ => []
  | width + 1, n => UInt8.ofNat n :: encode width (n / 256)

/-- The number whose bytes, least significant first, are given.  Bytes that are missing at the end
count as zero. -/
def decode : Bytes → Nat
  | [] => 0
  | b :: rest => b.toNat + 256 * decode rest

end LittleEndian

end BinarySchema
