/-
# Writing runs of items

The parts of writing that do not depend on what the items are: runs of slots of one size, vectors
and dicts.  How one item is written is an argument.

Whatever does not fit is left out: trailing items while even the table is too long, and then each
item whose bytes do not fit into what its predecessors left, which becomes a hole.
-/
import BinarySchema.Layout.Size

namespace BinarySchema

/-- A byte string after a value has been written to its front. -/
structure Written where
  /-- The byte string, as long as before. -/
  bytes : Bytes
  /-- The number of bytes that the value takes. -/
  length : Nat
  deriving Repr

/-- A byte string that a value did not fit into. -/
def Written.nothing (b : Bytes) : Written := ⟨b, 0⟩

/-- The bytes that the value takes. -/
def Written.value (w : Written) : Bytes := w.bytes.take w.length

namespace Layout

/-- The number of whole slots of `stride` bytes that a byte string holds, up to `capacity`. -/
def slotCount (stride capacity : Nat) (b : Bytes) : Nat :=
  if stride = 0 then capacity else min capacity (b.length / stride)

/-! ## Vectors -/

/-- The items of a vector after its header. -/
structure Packing where
  /-- Where each item ends. -/
  ends : List Nat
  /-- The bytes after the header. -/
  data : Bytes

/-- Packs items one after the other into a byte string that begins at offset `start`.  An item takes
as many bytes as `put` says it wrote, and is left out if the `size` that it needs is not there. -/
def pack (size : Value → Nat) (put : Value → Bytes → Written) :
    List Value → (start : Nat) → Bytes → Packing
  | [], _, b => ⟨[], b⟩
  | v :: rest, start, b =>
    let need := size v
    let fits := !v.isNull && decide (need ≤ b.length)
    let w := if fits then put v (b.take need) else ⟨[], 0⟩
    let after := if fits then w.bytes.drop w.length ++ b.drop need else b
    let next := start + w.length
    let packing := pack size put rest next after
    ⟨next :: packing.ends, w.value ++ packing.data⟩

/-- The number of items of a vector whose header fits into `room` bytes, of at most `count`. -/
def vectorCount (count room : Nat) : Nat := min count ((room - headerLength 0) / Word.width)

/-- Writes a vector. -/
def writeVector (size : Value → Nat) (put : Value → Bytes → Written) (items : List Value)
    (b : Bytes) : Written :=
  if b.length < headerLength 0 then .nothing b
  else
    let count := vectorCount items.length b.length
    let start := headerLength count
    let packing := pack size put (items.take count) start (b.drop start)
    let table := (count :: start :: packing.ends).flatMap fun n => Word.toBytes (Word.ofLength n)
    ⟨table ++ packing.data, packing.ends.getLastD start⟩

/-! ## Dicts -/

/-- The number of entries of a dict whose header and keys fit into `room` bytes, of at most
`count`. -/
def dictCount (keyLength count room : Nat) : Nat :=
  min count ((room - dictOverhead keyLength 0) / (Word.width + keyLength))

/-- Writes a dict.  The keys are written in place by `putKey`. -/
def writeDict (keyLength : Nat) (putKey : String → Bytes → Bytes) (size : Value → Nat)
    (put : Value → Bytes → Written) (fields : List (String × Value)) (b : Bytes) : Written :=
  if b.length < dictOverhead keyLength 0 then .nothing b
  else
    let count := dictCount keyLength fields.length b.length
    let fields := fields.take count
    let room := b.length - Word.width - count * keyLength
    let values := writeVector size put (fields.map (·.2)) (b.take room)
    let keysOffset := values.length + Word.width
    let after := (values.bytes ++ b.drop room).drop keysOffset
    ⟨values.value ++ Word.toBytes (Word.ofLength keysOffset)
        ++ onSlots keyLength (fields.map fun f => putKey f.1) after,
      keysOffset + count * keyLength⟩

end Layout

end BinarySchema
