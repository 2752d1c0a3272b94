/-
# Where the parts of a value are

Given a layout and a byte string, this module finds the bytes of each item, field and entry without
decoding any.  The byte string may be anything: a header that is cut off or that points outside
leads to no span.
-/
import BinarySchema.Layout.Size
import BinarySchema.Layout.Slots

namespace BinarySchema

namespace Layout

/-! ## Arrays -/

/-- Where the item with the given number of an array begins. -/
def itemOffset (stride i : Nat) : Nat := i * stride

/-- Where the item with the given number of a packed array begins, a 64-bit number. -/
def packedOffset (p : Primitive) (i : Nat) : Nat := i <<< p.shift % UInt64.size

/-- The span of an item of an array. -/
def slotSpan? (stride capacity : Nat) (b : Bytes) (i : Nat) : Option Span :=
  if i < slotCount stride capacity b then some ⟨itemOffset stride i, stride⟩ else none

/-- The span of an item of a packed array. -/
def packedSpan? (p : Primitive) (capacity : Nat) (b : Bytes) (i : Nat) : Option Span :=
  if i < slotCount p.width capacity b then some ⟨packedOffset p i, p.width⟩ else none

/-! ## Vectors -/

/-- The number of items that the header of a vector names. -/
def storedCount (b : Bytes) : Nat := Word.lengthAt b 0

/-- Where the last item of a vector ends. -/
def vectorEnd (b : Bytes) : Nat := Word.lengthAt b (entryOffset (storedCount b))

/-- The span between two offsets that are stored, if it lies inside the byte string and holds at
least one byte. -/
def storedSpan? (b : Bytes) (start stop : Option Nat) : Option Span := do
  let start ← start
  let stop ← stop
  if stop ≤ b.length then Span.between? start stop else none

/-- The offset that is stored at another one. -/
def storedOffset? (b : Bytes) (offset : Nat) : Option Nat := (Word.read? b offset).map UInt32.toNat

/-- The span of an item of a vector.  A hole has none. -/
def vectorSpan? (b : Bytes) (i : Nat) : Option Span :=
  if i < storedCount b then
    storedSpan? b (storedOffset? b (entryOffset i)) (storedOffset? b (entryOffset (i + 1)))
  else none

/-! ## Dicts -/

/-- Where the keys of a dict begin. -/
def keysOffset (b : Bytes) : Nat := Word.lengthAt b (vectorEnd b)

/-- The number of keys of a dict, from the first one on, that lie inside the byte string. -/
def keyCount (keyLength : Nat) (b : Bytes) : Nat :=
  if keyLength = 0 then if keysOffset b ≤ b.length then storedCount b else 0
  else min (storedCount b) ((b.length - keysOffset b) / keyLength)

/-- The span of the key with the given number. -/
def keySpan (keyLength : Nat) (b : Bytes) (i : Nat) : Span :=
  ⟨keysOffset b + i * keyLength, keyLength⟩

/-! ## Maps -/

/-- The span of an optional field of a map: from the end of the one before it, or from `data` for
the first, to its own end.  A field that is absent has none. -/
def optionalSpan? (table data : Nat) (b : Bytes) (ordinal : Nat) : Option Span :=
  let entry (i : Nat) : Option Nat := storedOffset? b (table + i * Word.width)
  storedSpan? b (if ordinal = 0 then some data else entry (ordinal - 1)) (entry ordinal)

/-! ## All layouts -/

/-- The number of items of a list, or of entries of a dict. -/
def itemCount : Layout → Bytes → Nat
  | .array _ stride capacity, b => slotCount stride capacity b
  | .packed p capacity, b => slotCount p.width capacity b
  | .vector _ _, b | .dict _ _ _, b => storedCount b
  | _, _ => 0

/-- The layout and the span of an item of a list, or of a value of a dict by its number. -/
def itemSpan? (layout : Layout) (b : Bytes) (i : Nat) : Option (Layout × Span) :=
  match layout with
  | .array item stride capacity => (slotSpan? stride capacity b i).map (item, ·)
  | .packed p capacity => (packedSpan? p capacity b i).map (.primitive p, ·)
  | .vector item _ => (vectorSpan? b i).map (item, ·)
  | .dict _ _ value => (vectorSpan? b i).map (value, ·)
  | _ => none

/-- The layout and the span of a field of a record, by its position.  The span of a field at a
fixed place is the same for all byte strings. -/
def fieldSpan? (layout : Layout) (b : Bytes) (i : Nat) : Option (Layout × Span) :=
  match layout with
  | .object fields => do
    let f ← fields[i]?
    return (f.layout, ← f.span?)
  | .map fields => do
    let f ← fields[i]?
    match f.place with
    | .fixed span => return (f.layout, span)
    | .optional ordinal =>
      return (f.layout, ← optionalSpan? (fixedRegion fields) (dataStart fields) b ordinal)
  | _ => none

/-- The number of bytes that the value at the front of a byte string takes. -/
def usedLength (layout : Layout) (b : Bytes) : Nat :=
  let stored : Nat :=
    match layout with
    | .vector _ _ => vectorEnd b
    | .map fields => Word.lengthAt b (usedLengthOffset fields)
    | .dict _ keyLength _ => keysOffset b + storedCount b * keyLength
    | _ => layout.fixedLength?.getD b.length
  min stored b.length

end Layout

end BinarySchema
