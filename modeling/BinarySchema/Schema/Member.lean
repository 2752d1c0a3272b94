/-
# The members of a schema document

A schema is written as an object with twelve possible members, or as an array that gives them by
position.  This module lists them in that order.
-/
import BinarySchema.Schema

namespace BinarySchema

/-- A member of the object that a schema is written as. -/
inductive SchemaMember where
  /-- The name of the schema. -/
  | id
  /-- The name of another schema. -/
  | reference
  /-- The type. -/
  | type
  /-- The binary type. -/
  | btype
  /-- The fields of a record. -/
  | properties
  /-- The items of a list. -/
  | items
  /-- The names of required fields. -/
  | required
  /-- The bound on the bytes of a text or blob. -/
  | maxLength
  /-- The bound on the items of a list. -/
  | maxItems
  /-- The keys of a record with arbitrary keys. -/
  | propertyNames
  /-- The values of a record with arbitrary keys. -/
  | additionalProperties
  /-- The default. -/
  | default
  deriving DecidableEq, Repr

namespace SchemaMember

/-- The members in the order in which they are written. -/
def all : List SchemaMember :=
  [.id, .reference, .type, .btype, .properties, .items, .required, .maxLength, .maxItems,
    .propertyNames, .additionalProperties, .default]

/-- The name of a member. -/
def name : SchemaMember → String
  | .id => "$id"
  | .reference => "$ref"
  | .type => "type"
  | .btype => "btype"
  | .properties => "properties"
  | .items => "items"
  | .required => "required"
  | .maxLength => "maxLength"
  | .maxItems => "maxItems"
  | .propertyNames => "propertyNames"
  | .additionalProperties => "additionalProperties"
  | .default => "default"

/-- The member with the given name. -/
def ofName? (s : String) : Option SchemaMember := all.find? fun m => m.name == s

end SchemaMember

end BinarySchema
