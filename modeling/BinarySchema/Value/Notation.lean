/-
# Described values

The text of a value inside a message: the form of the value, and its content between parentheses.
-/
import BinarySchema.Value
import BinarySchema.Number.Notation
import BinarySchema.Text.Quoted

namespace BinarySchema

namespace Value

mutual

/-- The text of a value inside a message. -/
def description : Value → String
  | .null => "Null"
  | .bool b => "Bool(" ++ toString b ++ ")"
  | .int n => "Int(" ++ toString n.toInt ++ ")"
  | .uint n => "UInt(" ++ toString n.toNat ++ ")"
  | .float x => "Float(" ++ x.text .described ++ ")"
  | .text s => "Str(" ++ Text.quoted s ++ ")"
  | .blob b => "Bytes(" ++ Text.bracketed (b.map fun byte => toString byte.toNat) ++ ")"
  | .list items => "List(" ++ Text.bracketed (descriptions items) ++ ")"
  | .record fields => "Record(" ++ Text.braced (fieldDescriptions fields) ++ ")"

/-- The texts of the items of a list. -/
def descriptions : List Value → List String
  | [] => []
  | v :: rest => description v :: descriptions rest

/-- The texts of the fields of a record. -/
def fieldDescriptions : List (String × Value) → List String
  | [] => []
  | f :: rest => (Text.quoted f.1 ++ ": " ++ description f.2) :: fieldDescriptions rest

end

end Value

end BinarySchema
