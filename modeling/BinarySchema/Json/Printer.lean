/-
# Writing JSON text

The compact text of a document: no blanks, the members of an object in their order.
-/
import BinarySchema.Json
import BinarySchema.Number.Notation

namespace BinarySchema

namespace Json

/-- A character as it is written inside a string.  Quotes, backslashes and control characters are
escaped, everything else stands for itself. -/
def printedChar (c : Char) : List Char :=
  match c with
  | '"' => ['\\', '"']
  | '\\' => ['\\', '\\']
  | '\x08' => ['\\', 'b']
  | '\x0c' => ['\\', 'f']
  | '\n' => ['\\', 'n']
  | '\x0d' => ['\\', 'r']
  | '\t' => ['\\', 't']
  | _ =>
    if c.toNat < 0x20 then
      ['\\', 'u', '0', '0', Nat.digitChar (c.toNat / 16), Nat.digitChar (c.toNat % 16)]
    else [c]

/-- A string with its quotes. -/
def printedText (s : String) : String :=
  String.ofList ('"' :: s.toList.flatMap printedChar ++ ['"'])

/-- The text of a number. -/
def Number.print : Number → String
  | .natural n => toString n.toNat
  | .negative n => toString n.toInt
  | .float x => x.text .json

mutual

/-- The compact text of a document. -/
def print : Json → String
  | .null => "null"
  | .bool b => toString b
  | .number n => n.print
  | .text s => printedText s
  | .list items => "[" ++ ",".intercalate (printItems items) ++ "]"
  | .object members => "\x7b" ++ ",".intercalate (printMembers members) ++ "\x7d"

/-- The texts of the items of an array. -/
def printItems : List Json → List String
  | [] => []
  | j :: rest => print j :: printItems rest

/-- The texts of the members of an object. -/
def printMembers : List (String × Json) → List String
  | [] => []
  | m :: rest => (printedText m.1 ++ ":" ++ print m.2) :: printMembers rest

end

end Json

end BinarySchema
