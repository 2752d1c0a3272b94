/-
# Values from JSON documents

A whole number becomes a signed integer if it fits one and an unsigned integer otherwise.
-/
import BinarySchema.Json
import BinarySchema.Value

namespace BinarySchema

namespace Value

/-- The value that holds a JSON number. -/
def ofNumber : Json.Number → Value
  | .natural n => if n.toNat ≤ Int64.maxValue.toInt then .int n.toInt64 else .uint n
  | .negative n => .int n
  | .float x => .float x

mutual

/-- The value that holds a JSON document. -/
def ofJson : Json → Value
  | .null => .null
  | .bool b => .bool b
  | .number n => ofNumber n
  | .text s => .text s
  | .list items => .list (ofItems items)
  | .object members => .ofFields (ofMembers members)

/-- The values that hold the items of an array. -/
def ofItems : List Json → List Value
  | [] => []
  | j :: rest => ofJson j :: ofItems rest

/-- The fields that hold the members of an object. -/
def ofMembers : List (String × Json) → List (String × Value)
  | [] => []
  | m :: rest => (m.1, ofJson m.2) :: ofMembers rest

end

end Value

end BinarySchema
