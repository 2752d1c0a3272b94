/-
# JSON documents

A JSON number keeps the form in which it was written: a whole number without fraction and exponent
stays an integer as long as it fits 64 bits, and every other number is a floating-point number.
The members of an object stand in the order in which they were written, each name once.

`Json.Draft` is a document as it stands in a text, before anyone has asked what its parts mean:
names may repeat, and a number may be out of range and a string may break off inside a surrogate
pair.  Such a part is only a fault where it is used.
-/
import BinarySchema.Number.Binary
import BinarySchema.Table

namespace BinarySchema

/-- A JSON number. -/
inductive Json.Number where
  /-- A whole number without a sign. -/
  | natural (n : UInt64)
  /-- A whole number with a minus sign. -/
  | negative (n : Int64)
  /-- Every other number. -/
  | float (x : Binary64)
  deriving DecidableEq, Repr

/-- A JSON document. -/
inductive Json where
  /-- The literal `null`. -/
  | null
  /-- A truth value. -/
  | bool (b : Bool)
  /-- A number. -/
  | number (n : Json.Number)
  /-- A string. -/
  | text (s : String)
  /-- An array. -/
  | list (items : List Json)
  /-- An object, its members in order. -/
  | object (members : List (String × Json))
  deriving Inhabited, Repr

/-- A JSON document as it stands in a text. -/
inductive Json.Draft where
  /-- The literal `null`. -/
  | null
  /-- A truth value. -/
  | bool (b : Bool)
  /-- A number, or `none` if it is out of range. -/
  | number (n : Option Json.Number)
  /-- A string, or `none` if it holds half a surrogate pair. -/
  | text (s : Option String)
  /-- An array. -/
  | list (items : List Json.Draft)
  /-- An object, all its members in order. -/
  | object (members : List (Option String × Json.Draft))
  deriving Inhabited, Repr

namespace Json

/-! ## Parts of a document -/

/-- The member of an object. -/
def get? (j : Json) (name : String) : Option Json :=
  match j with
  | .object members => members.lookup name
  | _ => none

/-- The string, if the document is one. -/
def text? : Json → Option String
  | .text s => some s
  | _ => none

/-- The truth value, if the document is one. -/
def bool? : Json → Option Bool
  | .bool b => some b
  | _ => none

/-- The integer, if the document is one. -/
def int? : Json → Option Int
  | .number (.natural n) => some n.toNat
  | .number (.negative n) => some n.toInt
  | _ => none

/-- The natural number, if the document is one. -/
def nat? : Json → Option Nat
  | .number (.natural n) => some n.toNat
  | _ => none

/-- The items, if the document is an array. -/
def items? : Json → Option (List Json)
  | .list items => some items
  | _ => none

/-- The document that holds an integer of at most 64 bits. -/
def ofInt (n : Int) : Json :=
  if 0 ≤ n then .number (.natural (UInt64.ofNat n.toNat)) else .number (.negative (Int64.ofInt n))

/-! ## Documents as drafts -/

mutual

/-- The draft of a document: nothing in it is at fault. -/
def draft : Json → Draft
  | .null => .null
  | .bool b => .bool b
  | .number n => .number (some n)
  | .text s => .text (some s)
  | .list items => .list (drafts items)
  | .object members => .object (memberDrafts members)

/-- The drafts of the items of an array. -/
def drafts : List Json → List Draft
  | [] => []
  | j :: rest => draft j :: drafts rest

/-- The drafts of the members of an object. -/
def memberDrafts : List (String × Json) → List (Option String × Draft)
  | [] => []
  | m :: rest => (some m.1, draft m.2) :: memberDrafts rest

end

/-! ## How deep a document may nest -/

/-- How many containers may still be opened inside one another: a number, or any number. -/
abbrev Room := Option Nat

/-- The room that a text has: arrays and objects nest at most 127 deep. -/
def Room.ofText : Room := some 127

/-- Opens a container, if there is room for it. -/
def Room.enter? : Room → Option Room
  | none => some none
  | some 0 => none
  | some (n + 1) => some (some n)

namespace Draft

/-- Whether the document is `null`. -/
def isNull : Draft → Bool
  | .null => true
  | _ => false

mutual

/-- The document that a draft stands for, if no part of it is at fault.  Of two members of one name
the later value is kept, at the place of the first. -/
def toJson? (room : Room) : Draft → Option Json
  | .null => some .null
  | .bool b => some (.bool b)
  | .number n => n.map .number
  | .text s => s.map .text
  | .list items => do
    let room ← room.enter?
    return .list (← itemsToJson? room items)
  | .object members => do
    let room ← room.enter?
    return .object (Table.ofList (← membersToJson? room members))

/-- The items of an array, if no part of them is at fault. -/
def itemsToJson? (room : Room) : List Draft → Option (List Json)
  | [] => some []
  | d :: rest => do
    let j ← toJson? room d
    return j :: (← itemsToJson? room rest)

/-- The members of an object, if no part of them is at fault. -/
def membersToJson? (room : Room) : List (Option String × Draft) → Option (List (String × Json))
  | [] => some []
  | m :: rest => do
    let name ← m.1
    let j ← toJson? room m.2
    return (name, j) :: (← membersToJson? room rest)

end

end Draft

end Json

end BinarySchema
