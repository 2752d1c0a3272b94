/-
# The workspace

One byte string that serves every encoding whose size is not known beforehand.  A value is encoded
to its front and copied out; then the part that was used is cleared for the next one.  A value that
needs more than there is loses what does not fit.
-/
import BinarySchema.Layout.Encode

namespace BinarySchema

/-- A byte string that is used again and again. -/
structure Workspace where
  /-- The bytes. -/
  bytes : Bytes

namespace Workspace

/-- A workspace of the given size. -/
def ofCapacity (n : Nat) : Workspace := ⟨zeros n⟩

/-- The size of the workspace. -/
def capacity (w : Workspace) : Nat := w.bytes.length

/-- Encodes a value, and clears what it may have used. -/
def encode (w : Workspace) (layout : Layout) (v : Value) : Bytes × Workspace :=
  let written := layout.encodeOver v w.bytes
  let touched := max (layout.encodedLength v) written.length
  (written.value, ⟨onFront touched (fun used => zeros used.length) written.bytes⟩)

end Workspace

end BinarySchema
