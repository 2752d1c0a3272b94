/-
# Keys

The keys of a record are texts.  A dict whose keys are primitives reads each key as a numeral when
it writes and writes each key as a numeral when it reads.
-/
import BinarySchema.Layout
import BinarySchema.Number.Notation
import BinarySchema.Number.Numeral

namespace BinarySchema

namespace Value

/-- The value of a key that is a numeral or a truth value: the first of a signed integer, an
unsigned integer, a floating-point number and a truth value that it reads as, or else the hole. -/
def ofKey (key : String) : Value :=
  let s := key.toList
  match Numeral.signed? s with
  | some n => .int n
  | none =>
    match Numeral.unsigned s with
    | .ok n => .uint n
    | .error _ =>
      match Numeral.float? s with
      | some x => .float x
      | none => if key = "true" then .bool true else if key = "false" then .bool false else .null

/-- The key that a value reads as.  A value that no key can be has the empty one. -/
def toKey : Value → String
  | .text s => s
  | .blob b => Text.ofUtf8 b
  | .bool b => toString b
  | .int n => toString n.toInt
  | .uint n => toString n.toNat
  | .float x => x.text .key
  | .null | .list _ | .record _ => ""

end Value

namespace Layout

/-- The value to store for a key. -/
def keyValue (layout : Layout) (key : String) : Value :=
  match layout with
  | .primitive _ => .ofKey key
  | _ => .text key

/-- The value to look for, given the one that was asked for: a text may stand for a primitive. -/
def lookupKey (layout : Layout) (v : Value) : Value :=
  match layout, v with
  | .primitive _, .text key => .ofKey key
  | _, _ => v

/-- The key that a stored value reads as.  A number of 32 bits is written with the fewest digits
that tell it from others of 32 bits. -/
def keyText (layout : Layout) (v : Value) : String :=
  match layout, v with
  | .primitive .float32, .float x => x.toBinary32.text .key
  | _, _ => v.toKey

end Layout

end BinarySchema
