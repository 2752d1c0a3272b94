/-
# Layouts

A layout says how the values of one schema are stored as bytes.

* `primitive`, `text` and `blob` are leaves.  A text or blob with a cap takes exactly that many
  bytes in a fixed place, filled up with zeros.
* `array` and `packed` are runs of items of one fixed size, without a header.  A packed array
  holds primitives, and finds its items by shifts.
* `vector` is a list of any length: the number of items, a table of end offsets, the items.
* `dict` is a record with arbitrary keys: a vector of values, a word that says where the keys
  begin, the keys.
* `object` is a record whose fields all lie at fixed places, without a header.
* `map` is a record with fields at fixed places, followed by a table of end offsets and the
  optional fields.

All offsets count from the first byte of the value that they belong to.
-/
import BinarySchema.Primitive
import BinarySchema.Word

namespace BinarySchema

/-- Where the bytes of a field are. -/
inductive Place where
  /-- At a fixed span of the record. -/
  | fixed (span : Span)
  /-- Behind the table of end offsets, at the entry with the given number. -/
  | optional (ordinal : Nat)
  deriving DecidableEq, Repr

/-- A field of a record, `α` being the type of layouts. -/
structure Field (α : Type) where
  /-- The name of the field. -/
  name : String
  /-- The layout of the value of the field. -/
  layout : α
  /-- Where the bytes of the field are. -/
  place : Place
  /-- The value that stands for a missing one. -/
  default : Option Value
  /-- The greatest number of bytes that an optional field may take. -/
  maxLength : Option Nat

/-- How values are stored as bytes. -/
inductive Layout where
  /-- A number or truth value. -/
  | primitive (p : Primitive)
  /-- A text in UTF-8. -/
  | text (cap : Option Nat)
  /-- A blob. -/
  | blob (cap : Option Nat)
  /-- Items of `stride` bytes each, `capacity` of them. -/
  | array (item : Layout) (stride capacity : Nat)
  /-- Primitives, `capacity` of them. -/
  | packed (p : Primitive) (capacity : Nat)
  /-- Items of any size, at most `limit` of them. -/
  | vector (item : Layout) (limit : Option Nat)
  /-- A record with arbitrary keys of `keyLength` bytes each. -/
  | dict (key : Layout) (keyLength : Nat) (value : Layout)
  /-- A record with all fields at fixed places. -/
  | object (fields : List (Field Layout))
  /-- A record with fixed and optional fields. -/
  | map (fields : List (Field Layout))
  deriving Inhabited

namespace Field

variable {α : Type}

/-- The span of a field at a fixed place. -/
def span? (f : Field α) : Option Span :=
  match f.place with
  | .fixed span => some span
  | .optional _ => none

/-- The number of the entry of an optional field. -/
def ordinal? (f : Field α) : Option Nat :=
  match f.place with
  | .fixed _ => none
  | .optional ordinal => some ordinal

/-- The value to store for a field of a record: the one given, or else the default. -/
def pick? (f : Field α) (v : Value) : Option Value := (v.get? f.name).or f.default

end Field

namespace Layout

/-- The fields of a record. -/
def fields? : Layout → Option (List (Field Layout))
  | .object fields | .map fields => some fields
  | _ => none

/-- The position of the field with the given name.  Of several the last one counts. -/
def fieldIndex? : List (Field Layout) → String → Option Nat
  | [], _ => none
  | f :: rest, name =>
    match fieldIndex? rest name with
    | some i => some (i + 1)
    | none => if f.name = name then some 0 else none

/-- The field with the given name.  Of several the last one counts. -/
def fieldNamed? (fields : List (Field Layout)) (name : String) : Option (Field Layout) :=
  (fieldIndex? fields name).bind fun i => fields[i]?

/-- The layout as it is named in a description. -/
def label : Layout → String
  | .primitive _ | .text _ | .blob _ => "scalar"
  | .array _ _ _ => "array"
  | .packed _ _ => "typed_array"
  | .vector _ _ => "vector"
  | .dict _ _ _ => "dict"
  | .object _ => "object"
  | .map _ => "map"

end Layout

end BinarySchema
