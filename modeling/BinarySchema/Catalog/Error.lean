/-
# Why a schema has no layout

Each error names what is at fault: an id, or the place of a schema inside the one that was
submitted.
-/
import BinarySchema.Text.Quoted

namespace BinarySchema

/-- Why a schema could not be compiled. -/
inductive CompileError where
  /-- A reference leads to no schema. -/
  | unknownReference (id : String)
  /-- A value that needs a fixed size has none. -/
  | notFixedSize (place : String)
  /-- A text or blob that needs a fixed size has no bound. -/
  | unboundedString (place : String)
  /-- An array has no bound on its items. -/
  | unboundedArray (place : String)
  /-- Schemas that need one another's layouts first, or that need such schemas. -/
  | cycle (ids : List String)
  /-- The tag of a record cannot be read from its first byte. -/
  | misplacedTag (place : String)
  /-- A schema has no type and is no reference. -/
  | missingType (place : String)
  /-- The binary type does not fit the type. -/
  | unsupportedType (place : String)
  deriving DecidableEq, Repr

namespace CompileError

/-- The error, in words. -/
def message : CompileError → String
  | .unknownReference id => "Reference to unregistered id " ++ Text.quoted id
  | .notFixedSize place => place ++ " has no fixed size"
  | .unboundedString place => place ++ " is a string without maxLength"
  | .unboundedArray place => place ++ " is a fixed array without maxItems"
  | .cycle ids => "Unresolvable cycle among " ++ Text.bracketed (ids.map Text.quoted)
  | .misplacedTag place =>
    "Tag field of " ++ Text.quoted place ++ " must be a one-byte integer at byte 0"
  | .missingType place => place ++ " has neither a type nor a reference"
  | .unsupportedType place => place ++ " has a btype that does not fit its type"

/-- The error, and the schema whose compilation it ended. -/
def report (e : CompileError) (id : Option String) : String :=
  "Compiling schema " ++ Text.quoted (id.getD "<anonymous>") ++ ": " ++ e.message

end CompileError

end BinarySchema
