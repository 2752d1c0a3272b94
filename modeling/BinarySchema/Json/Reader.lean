/-
# Reading JSON text

A text is read lexeme by lexeme, with the containers that are open on a stack.
-/
import BinarySchema.Json.Lexeme
import BinarySchema.Json.Number

namespace BinarySchema

namespace Json

namespace Draft

/-- The document that a word is: a literal or a number. -/
def ofWord? (word : List Char) : Option Draft :=
  match word with
  | ['n', 'u', 'l', 'l'] => some .null
  | ['t', 'r', 'u', 'e'] => some (.bool true)
  | ['f', 'a', 'l', 's', 'e'] => some (.bool false)
  | _ => (NumberText.ofText? word).map fun t => .number t.value?

/-- A container that is still open; its parts so far, the last one first. -/
inductive Frame where
  /-- An array. -/
  | list (items : List Draft)
  /-- An object, and the name of the member whose value is under way. -/
  | object (members : List (Option String × Draft)) (name : Option String)

/-- What comes next in a text. -/
inductive Expectation where
  /-- A value. -/
  | value
  /-- A value, or the end of the array that has just been opened. -/
  | firstItem
  /-- The name of a member, of the innermost object, which has the given members. -/
  | name (members : List (Option String × Draft))
  /-- The same, or the end of that object, which has just been opened. -/
  | firstName
  /-- The colon after a name. -/
  | colon (members : List (Option String × Draft)) (name : Option String)
  /-- What follows a value: a comma, the end of the innermost container, or the end of the text. -/
  | after (value : Draft)

/-- Reads lexemes, given the open containers, the innermost one first. -/
def readFrom : Expectation → List Frame → List Lexeme → Option Draft
  | .after value, [], [] => some value
  | .after value, .list items :: stack, .mark .comma :: rest =>
    readFrom .value (.list (value :: items) :: stack) rest
  | .after value, .list items :: stack, .mark .closeList :: rest =>
    readFrom (.after (.list (value :: items).reverse)) stack rest
  | .after value, .object members name :: stack, .mark .comma :: rest =>
    readFrom (.name ((name, value) :: members)) stack rest
  | .after value, .object members name :: stack, .mark .closeObject :: rest =>
    readFrom (.after (.object ((name, value) :: members).reverse)) stack rest
  | .firstItem, .list _ :: stack, .mark .closeList :: rest => readFrom (.after (.list [])) stack rest
  | .firstName, stack, .mark .closeObject :: rest => readFrom (.after (.object [])) stack rest
  | .firstName, stack, .quoted raw :: rest => do
    let name ← Lexeme.content? raw
    readFrom (.colon [] name) stack rest
  | .name members, stack, .quoted raw :: rest => do
    let name ← Lexeme.content? raw
    readFrom (.colon members name) stack rest
  | .colon members name, stack, .mark .colon :: rest =>
    readFrom .value (.object members name :: stack) rest
  | .value, stack, lexeme :: rest | .firstItem, stack, lexeme :: rest =>
    match lexeme with
    | .mark .openList => readFrom .firstItem (.list [] :: stack) rest
    | .mark .openObject => readFrom .firstName stack rest
    | .quoted raw => do
      let content ← Lexeme.content? raw
      readFrom (.after (.text content)) stack rest
    | .word word => do
      let value ← ofWord? word
      readFrom (.after value) stack rest
    | .mark _ => none
  | _, _, _ => none

/-- Reads a text that holds one document. -/
def ofText? (s : String) : Option Draft := do
  let lexemes ← Lexeme.ofText? s.toList
  readFrom .value [] lexemes

end Draft

/-- Reads a text that holds one document, no part of which is at fault. -/
def ofText? (s : String) : Option Json := (Draft.ofText? s).bind (Draft.toJson? Room.ofText)

end Json

end BinarySchema
