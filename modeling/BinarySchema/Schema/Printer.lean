/-
# Writing schemas

A schema is written as an object.  Its members stand in a fixed order, and those that are missing
or empty are left out.
-/
import BinarySchema.Json.Printer
import BinarySchema.Schema.Member

namespace BinarySchema

namespace Schema

/-- The members of the object that a schema is written as, from the documents of its members. -/
def presentMembers (members : List (SchemaMember × Option Json)) : List (String × Json) :=
  members.filterMap fun m => m.2.map fun j => (m.1.name, j)

/-- The document of a list of parts, unless it is empty. -/
def unlessEmpty {α : Type} (parts : List α) (j : Json) : Option Json :=
  if parts.isEmpty then none else some j

mutual

/-- The document that describes a schema. -/
def toJson : Schema → Json
  | ⟨facts, properties, items, propertyNames, additionalProperties⟩ =>
    .object <| presentMembers
      [(.id, facts.id.map .text),
        (.reference, facts.reference.map .text),
        (.type, facts.type.map fun t => .text t.name),
        (.btype, facts.btype.map fun t => .text t.name),
        (.properties, unlessEmpty properties (.object (fieldsToJson properties))),
        (.items, optionToJson items),
        (.required, unlessEmpty facts.required (.list (facts.required.map .text))),
        (.maxLength, facts.maxLength.map fun n => .number (.natural n)),
        (.maxItems, facts.maxItems.map fun n => .number (.natural n)),
        (.propertyNames, optionToJson propertyNames),
        (.additionalProperties, optionToJson additionalProperties),
        (.default, facts.default)]

/-- The document that describes a schema that may be missing. -/
def optionToJson : Option Schema → Option Json
  | none => none
  | some s => some (toJson s)

/-- The members that describe the fields of a record. -/
def fieldsToJson : List (String × Schema) → List (String × Json)
  | [] => []
  | f :: rest => (f.1, toJson f.2) :: fieldsToJson rest

end

/-- The text that describes a schema. -/
def print (s : Schema) : String := s.toJson.print

end Schema

end BinarySchema
