/-
# Sizes

`fixedLength?` is the size that all values of a layout share, if they do, and `encodedLength` the
size that one value needs in full.  The module also holds the sizes of headers.
-/
import BinarySchema.Layout

namespace BinarySchema

-- A sum begins with the zero of the core library, also where other modules bring their own.
attribute [local instance (2000)] Zero.ofOfNat0

namespace Layout

/-! ## Vectors and dicts -/

/-- Where the entry with the given number of a vector's table is.  Entry `i` is the start of item
`i` and the end of item `i - 1`. -/
def entryOffset (i : Nat) : Nat := Word.width + i * Word.width

/-- The number of bytes of the header of a vector with `count` items: the count and the table. -/
def headerLength (count : Nat) : Nat := Word.width + (count + 1) * Word.width

/-- The number of bytes of a dict with `count` entries, apart from the values: the header, the word
that says where the keys begin, and the keys. -/
def dictOverhead (keyLength count : Nat) : Nat :=
  headerLength count + Word.width + count * keyLength

/-- The items of a vector that its limit admits. -/
def admitted (limit : Option Nat) (items : List Value) : List Value :=
  match limit with
  | none => items
  | some n => items.take n

/-! ## Records -/

/-- The spans of the fields at fixed places. -/
def fixedSpans (fields : List (Field Layout)) : List Span := fields.filterMap Field.span?

/-- The number of bytes up to the end of the last field at a fixed place. -/
def fixedRegion (fields : List (Field Layout)) : Nat :=
  (fixedSpans fields).foldl (fun n span => max n span.stop) 0

/-- The number of optional fields. -/
def optionalCount (fields : List (Field Layout)) : Nat := (fields.filterMap Field.ordinal?).length

/-- Where the end offset with the given number is stored in a map. -/
def endOffset (fields : List (Field Layout)) (ordinal : Nat) : Nat :=
  fixedRegion fields + ordinal * Word.width

/-- Where the used length is stored in a map: right after the end offsets. -/
def usedLengthOffset (fields : List (Field Layout)) : Nat :=
  endOffset fields (optionalCount fields)

/-- Where the optional fields of a map begin. -/
def dataStart (fields : List (Field Layout)) : Nat := usedLengthOffset fields + Word.width

/-! ## All layouts -/

/-- The size of a packed array in bytes, a 64-bit number. -/
def packedLength (p : Primitive) (capacity : Nat) : Nat := capacity <<< p.shift % UInt64.size

/-- The size that all values of the layout share, if they do. -/
def fixedLength? : Layout → Option Nat
  | .primitive p => some p.width
  | .text cap | .blob cap => cap
  | .array _ stride capacity => some (capacity * stride)
  | .packed p capacity => some (packedLength p capacity)
  | .object fields => some (fixedRegion fields)
  | .vector _ _ | .dict _ _ _ | .map _ => none

/-- A length, brought below a cap. -/
def capped (cap : Option Nat) (n : Nat) : Nat :=
  match cap with
  | none => n
  | some m => min n m

mutual

/-- The number of bytes that a value needs in full.  A text or blob needs its content, as far as
the cap admits it; any other value of a layout with a fixed size needs that size. -/
def encodedLength : Layout → Value → Nat
  | .primitive p, _ => p.width
  | .text cap, v | .blob cap, v => capped cap v.bytes.length
  | .array _ stride capacity, _ => capacity * stride
  | .packed p capacity, _ => packedLength p capacity
  | .vector item limit, v =>
    let items := admitted limit v.items
    headerLength items.length
      + (items.map fun i => if i.isNull then 0 else encodedLength item i).sum
  | .dict _ keyLength value, v =>
    let values := v.fields.map (·.2)
    dictOverhead keyLength values.length
      + (values.map fun i => if i.isNull then 0 else encodedLength value i).sum
  | .object fields, _ => fixedRegion fields
  | .map fields, v => dataStart fields + optionalsLength fields v

/-- The number of bytes that the optional fields of a record need in full. -/
def optionalsLength : List (Field Layout) → Value → Nat
  | [], _ => 0
  | f :: rest, v =>
    let own : Nat :=
      match f.place, f.pick? v with
      | .optional _, some x => capped f.maxLength (encodedLength f.layout x)
      | _, _ => 0
    own + optionalsLength rest v

end

end Layout

end BinarySchema
