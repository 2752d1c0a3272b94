/-
# Header words

Every length that is stored beside data (an item count, an end offset, a used length) is a header
word: four bytes, little-endian.  A length that does not fit is stored as the greatest word.
-/
import BinarySchema.Bytes

namespace BinarySchema

namespace Word

/-- The number of bytes of a header word. -/
def width : Nat := 4

/-- The word that stores a length: the length itself, or the greatest word. -/
def ofLength (n : Nat) : UInt32 := UInt32.ofNat (min n 0xffffffff)

/-- The bytes of a word. -/
def toBytes (w : UInt32) : Bytes := LittleEndian.encode width w.toNat

/-- The word at `offset`, or `none` where the byte string ends before it does. -/
def read? (b : Bytes) (offset : Nat) : Option UInt32 :=
  (Span.slice? ⟨offset, width⟩ b).map fun bytes => UInt32.ofNat (LittleEndian.decode bytes)

/-- The length stored at `offset`.  A word that is cut off counts as zero. -/
def lengthAt (b : Bytes) (offset : Nat) : Nat := ((read? b offset).map UInt32.toNat).getD 0

/-- Writes a word at `offset`, or gives `none` where it would not fit. -/
def write? (w : UInt32) (b : Bytes) (offset : Nat) : Option Bytes :=
  let span : Span := ⟨offset, width⟩
  if span.Fits b then some (span.splice b (toBytes w)) else none

/-- Stores a length at `offset`.  Where its word does not fit, nothing changes. -/
def store (n : Nat) (b : Bytes) (offset : Nat) : Bytes := (write? (ofLength n) b offset).getD b

end Word

end BinarySchema
