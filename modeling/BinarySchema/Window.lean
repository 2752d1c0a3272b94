/-
# Windows

A window is a layout and the bytes of one encoded value.  Moving to a part of the value narrows the
window; nothing is decoded until `Window.value` is asked for.

Writing through a window never moves other bytes.  A part is only overwritten inside the bytes that
it has, so that a part of variable size takes a new value only if that needs no more bytes than the
old one.  `Cursor` keeps the bytes around a window, so that what is written shows in the whole.
-/
import BinarySchema.Layout.Decode
import BinarySchema.Layout.Search
import BinarySchema.Value.Plain

namespace BinarySchema

namespace Layout

/-- Whether a value can overwrite a slot and still read back unchanged, zeros filling up the slot.
Text ends at the first zero, and lists and records know their own length; but a blob reads to the
end of its slot, so that it has to fill it, unless the slot is the cap of the blob. -/
def fitsSlot (layout : Layout) (v : Value) (slot : Nat) : Bool :=
  let need := encodedLength layout v
  match layout with
  | .blob cap => need == slot || (need < slot && cap == some slot)
  | _ => need ≤ slot

end Layout

/-- A layout and the bytes of a value.  Bytes after the value do no harm. -/
structure Window where
  /-- The layout of the value. -/
  layout : Layout
  /-- The bytes, the value at their front. -/
  bytes : Bytes

/-- A step from a value to a part of it. -/
inductive Hop where
  /-- To the field of a record with a name. -/
  | field (name : String)
  /-- To the field of a record at a position. -/
  | fieldAt (i : Nat)
  /-- To an item of a list, or to a value of a dict by its number. -/
  | item (i : Nat)
  /-- The same, where a negative number counts from the end. -/
  | itemFromEnd (i : Int)
  /-- To the value of a dict under a key. -/
  | key (k : Value)

namespace Window

/-- The value. -/
def value (w : Window) : Value := w.layout.decode w.bytes

/-- The number of items of a list, or of entries of a dict. -/
def size (w : Window) : Nat := w.layout.itemCount w.bytes

/-- The position of the field with a name. -/
def fieldIndex? (w : Window) (name : String) : Option Nat :=
  w.layout.fields?.bind fun fields => Layout.fieldIndex? fields name

/-- The number of an item, where a negative number counts from the end. -/
def itemIndex? (w : Window) (i : Int) : Option Nat :=
  if 0 ≤ i then some i.toNat
  else if i.natAbs ≤ w.size then some (w.size - i.natAbs) else none

/-- Where a step leads: to a layout and a span of the bytes. -/
def target? (w : Window) : Hop → Option (Layout × Span)
  | .field name => (w.fieldIndex? name).bind (w.layout.fieldSpan? w.bytes)
  | .fieldAt i => w.layout.fieldSpan? w.bytes i
  | .item i => w.layout.itemSpan? w.bytes i
  | .itemFromEnd i => (w.itemIndex? i).bind (w.layout.itemSpan? w.bytes)
  | .key k => w.layout.entrySpan? w.bytes k

/-- The window to a part.  There is none for a part that is absent, and none for a part that is cut
off. -/
def part? (w : Window) (h : Hop) : Option Window := do
  let (layout, span) ← w.target? h
  return ⟨layout, ← span.slice? w.bytes⟩

/-- The value of a part. -/
def get? (w : Window) (h : Hop) : Option Value := (w.part? h).map Window.value

/-- The number of the first item, at or after `start`, that is stored as the given value is. -/
def indexOf? (w : Window) (v : Value) (start : Nat) : Option Nat :=
  w.layout.indexOf? w.bytes v start

/-- The value as a member of a plain type. -/
def read (w : Window) (p : Plain) : Except Mismatch p.Carrier := w.value.read p

/-! ## Writing -/

/-- Overwrites the value, if the new one fits into the bytes. -/
def write? (w : Window) (v : Value) : Option Window :=
  if w.layout.fitsSlot v w.bytes.length then
    some { w with bytes := (w.layout.encodeOver v (zeros w.bytes.length)).bytes }
  else none

/-- Overwrites a part, if it is there and the new value fits into its bytes. -/
def set? (w : Window) (h : Hop) (v : Value) : Option Window := do
  let (_, span) ← w.target? h
  let part ← (← w.part? h).write? v
  return { w with bytes := span.splice w.bytes part.bytes }

end Window

/-- A window into a longer byte string. -/
structure Cursor where
  /-- The bytes before the window. -/
  before : Bytes
  /-- The window. -/
  window : Window
  /-- The bytes after the window. -/
  after : Bytes

namespace Cursor

/-- The cursor whose window is everything. -/
def ofWindow (w : Window) : Cursor := ⟨[], w, []⟩

/-- The whole byte string. -/
def bytes (c : Cursor) : Bytes := c.before ++ c.window.bytes ++ c.after

/-- Moves to a part. -/
def enter? (c : Cursor) (h : Hop) : Option Cursor := do
  let (_, span) ← c.window.target? h
  let part ← c.window.part? h
  let b := c.window.bytes
  return ⟨c.before ++ b.take span.start, part, b.drop span.stop ++ c.after⟩

end Cursor

end BinarySchema
