/-
# Values

What a layout stores and reads back is a `Value`: a tree without a schema of its own.  `Value.null`
doubles as the hole: a record field that is null counts as absent, and so does a null list item.

The fields of a record are kept in ascending order of their names, each name once.
`Value.insertField` keeps that order, and `Value.ofFields` brings any list of fields into it.
-/
import BinarySchema.Number.Binary
import BinarySchema.Text.Utf8

namespace BinarySchema

/-- A value without a schema. -/
inductive Value where
  /-- Nothing: a hole, or an absent field. -/
  | null
  /-- A truth value. -/
  | bool (b : Bool)
  /-- A signed integer. -/
  | int (n : Int64)
  /-- An unsigned integer. -/
  | uint (n : UInt64)
  /-- A floating-point number. -/
  | float (x : Binary64)
  /-- A text. -/
  | text (s : String)
  /-- A blob. -/
  | blob (b : Bytes)
  /-- A list of values. -/
  | list (items : List Value)
  /-- A record: named values, in ascending order of the names. -/
  | record (fields : List (String × Value))
  deriving Inhabited, Repr

namespace Value

/-! ## Records -/

/-- Sets a field in an ordered list of fields.  A field of that name that is there already is
replaced. -/
def insertField {α : Type} (name : String) (v : α) : List (String × α) → List (String × α)
  | [] => [(name, v)]
  | (name', v') :: rest =>
    if name < name' then (name, v) :: (name', v') :: rest
    else if name = name' then (name, v) :: rest
    else (name', v') :: insertField name v rest

/-- Sets a field in an ordered list of fields, unless a field of that name is there already. -/
def insertNewField {α : Type} (name : String) (v : α) (fields : List (String × α)) :
    List (String × α) :=
  if (fields.lookup name).isSome then fields else insertField name v fields

/-- Brings fields into order.  Of two with one name the later one stays. -/
def orderFields {α : Type} (fields : List (String × α)) : List (String × α) :=
  fields.foldl (fun out f => insertField f.1 f.2 out) []

/-- The record with the given fields.  Of two with one name the later one stays. -/
def ofFields (fields : List (String × Value)) : Value := .record (orderFields fields)

/-! ## Parts of a value -/

/-- Whether the value is the hole. -/
def isNull : Value → Bool
  | .null => true
  | _ => false

/-- The field of a record.  A field that is null counts as absent. -/
def get? (v : Value) (name : String) : Option Value :=
  match v with
  | .record fields => (fields.lookup name).filter fun field => !field.isNull
  | _ => none

/-- The text, if the value is one. -/
def text? : Value → Option String
  | .text s => some s
  | _ => none

/-- The bytes of a blob or of a text. -/
def bytes? : Value → Option Bytes
  | .blob b => some b
  | .text s => some (Text.utf8 s)
  | _ => none

/-- The items, if the value is a list. -/
def items? : Value → Option (List Value)
  | .list items => some items
  | _ => none

/-- The fields, if the value is a record. -/
def fields? : Value → Option (List (String × Value))
  | .record fields => some fields
  | _ => none

/-- The bytes of a blob or of a text, and none of any other value. -/
def bytes (v : Value) : Bytes := v.bytes?.getD []

/-- The items of a list, and none of any other value. -/
def items (v : Value) : List Value := v.items?.getD []

/-- The fields of a record, and none of any other value. -/
def fields (v : Value) : List (String × Value) := v.fields?.getD []

/-! ## Numbers

A value is taken as a number the way a store of fixed width takes it: integers wrap around between
the signed and the unsigned range, and a floating-point number gives its integer part, brought into
the range. -/

/-- The value as a signed integer. -/
def toInt64? : Value → Option Int64
  | .bool b => some (if b then 1 else 0)
  | .int n => some n
  | .uint n => some n.toInt64
  | .float x => some x.toInt64
  | _ => none

/-- The value as an unsigned integer. -/
def toUInt64? : Value → Option UInt64
  | .bool b => some (if b then 1 else 0)
  | .int n => some n.toUInt64
  | .uint n => some n
  | .float x => some x.toUInt64
  | _ => none

/-- The value as a floating-point number. -/
def toBinary64? : Value → Option Binary64
  | .bool b => some (.ofInt (if b then 1 else 0))
  | .int n => some (.ofInt n.toInt)
  | .uint n => some (.ofInt n.toNat)
  | .float x => some x
  | _ => none

/-! ## Equality

Two values are the same when they have the same form and the same parts, floating-point numbers
being compared as numbers: a NaN differs from itself, and the two zeros agree. -/

mutual

/-- Whether two values are the same. -/
def same : Value → Value → Bool
  | .null, .null => true
  | .bool a, .bool b => a == b
  | .int a, .int b => a == b
  | .uint a, .uint b => a == b
  | .float a, .float b => a.sameNumber b
  | .text a, .text b => a == b
  | .blob a, .blob b => a == b
  | .list as, .list bs => sameItems as bs
  | .record as, .record bs => sameFields as bs
  | _, _ => false

/-- Whether two lists have the same items. -/
def sameItems : List Value → List Value → Bool
  | [], [] => true
  | a :: as, b :: bs => same a b && sameItems as bs
  | _, _ => false

/-- Whether two records have the same fields. -/
def sameFields : List (String × Value) → List (String × Value) → Bool
  | [], [] => true
  | a :: as, b :: bs => a.1 == b.1 && same a.2 b.2 && sameFields as bs
  | _, _ => false

end

end Value

end BinarySchema
