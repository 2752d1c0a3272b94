/-
# Searching encoded values

A value is looked for by its bytes: it is encoded once, and the bytes of each candidate are
compared with that.  No candidate is decoded.
-/
import BinarySchema.Layout.Encode
import BinarySchema.Layout.Span

namespace BinarySchema

namespace Layout

/-- The first of `count` numbers, from `start` on, that has a property. -/
def firstFrom (p : Nat → Bool) (start : Nat) : (count : Nat) → Option Nat
  | 0 => none
  | count + 1 => if p start then some start else firstFrom p (start + 1) count

/-- The bytes of a value in a slot of its own. -/
def needle (layout : Layout) (length : Nat) (v : Value) : Bytes :=
  (encode layout v (zeros length)).bytes

/-- The number of the first key, at or after `start`, that is stored as the given one is. -/
def keyIndex? (key : Layout) (keyLength : Nat) (b : Bytes) (v : Value) (start : Nat) : Option Nat :=
  let wanted := needle key keyLength (lookupKey key v)
  firstFrom (fun i => (keySpan keyLength b i).slice b == wanted) start
    (keyCount keyLength b - start)

/-- The number of the first item of an array, at or after `start`, that is stored as the given value
is.  In a dict, the number of the first such key. -/
def indexOf? (layout : Layout) (b : Bytes) (v : Value) (start : Nat) : Option Nat :=
  match layout with
  | .array item stride capacity =>
    let wanted := needle item stride v
    firstFrom (fun i => Span.slice ⟨itemOffset stride i, stride⟩ b == wanted) start
      (slotCount stride capacity b - start)
  | .packed p capacity =>
    let wanted := needle (.primitive p) p.width v
    firstFrom (fun i => Span.slice ⟨packedOffset p i, p.width⟩ b == wanted) start
      (slotCount p.width capacity b - start)
  | .dict key keyLength _ => keyIndex? key keyLength b v start
  | _ => none

/-- The layout and the span of the value of a dict under a key.  A hole has none. -/
def entrySpan? (layout : Layout) (b : Bytes) (key : Value) : Option (Layout × Span) :=
  match layout with
  | .dict keyLayout keyLength value => do
    let i ← keyIndex? keyLayout keyLength b key 0
    return (value, ← vectorSpan? b i)
  | _ => none

end Layout

end BinarySchema
