/-
# Schemas

A schema describes the shape of one value, in the words of JSON schema plus a `btype` that picks
the binary form:

    { "$id": "Person", "type": "object", "btype": "map",
      "properties": {
        "tag":     { "type": "integer", "btype": "uint8", "default": 1 },
        "name":    { "type": "string", "maxLength": 10 },
        "friends": { "type": "array", "btype": "vector", "items": { "$ref": "Person" } } },
      "required": ["tag", "name"] }

A schema is trusted: nothing in the library checks a value against one.
-/
import BinarySchema.Value.OfJson

namespace BinarySchema

/-! ## Types -/

/-- The `type` of a schema: the coarse form of its values. -/
inductive SchemaType where
  /-- Any numbers. -/
  | number
  /-- Whole numbers. -/
  | integer
  /-- Texts and blobs. -/
  | string
  /-- Truth values. -/
  | boolean
  /-- Records. -/
  | object
  /-- Lists. -/
  | array
  deriving DecidableEq, Repr

namespace SchemaType

/-- All types. -/
def all : List SchemaType := [.number, .integer, .string, .boolean, .object, .array]

/-- The type as it is written in a schema. -/
def name : SchemaType → String
  | .number => "number"
  | .integer => "integer"
  | .string => "string"
  | .boolean => "boolean"
  | .object => "object"
  | .array => "array"

/-- The type with the given name. -/
def ofName? (s : String) : Option SchemaType := all.find? fun t => t.name == s

end SchemaType

/-- The `btype` of a schema: the binary form of its values. -/
inductive BinaryType where
  /-- Signed integers of 8 bits. -/
  | int8
  /-- Unsigned integers of 8 bits. -/
  | uint8
  /-- Signed integers of 16 bits. -/
  | int16
  /-- Unsigned integers of 16 bits. -/
  | uint16
  /-- Signed integers of 32 bits. -/
  | int32
  /-- Unsigned integers of 32 bits. -/
  | uint32
  /-- Signed integers of 64 bits. -/
  | bigInt64
  /-- Unsigned integers of 64 bits. -/
  | bigUint64
  /-- Floating-point numbers of 32 bits. -/
  | float32
  /-- Floating-point numbers of 64 bits. -/
  | float64
  /-- Blobs. -/
  | binary
  /-- Lists of any length. -/
  | vector
  /-- Records with optional fields. -/
  | map
  /-- Records with arbitrary keys. -/
  | dict
  deriving DecidableEq, Repr

namespace BinaryType

/-- All binary types. -/
def all : List BinaryType :=
  [.int8, .uint8, .int16, .uint16, .int32, .uint32, .bigInt64, .bigUint64, .float32, .float64,
    .binary, .vector, .map, .dict]

/-- The binary type as it is named in a message. -/
def label : BinaryType → String
  | .int8 => "Int8"
  | .uint8 => "Uint8"
  | .int16 => "Int16"
  | .uint16 => "Uint16"
  | .int32 => "Int32"
  | .uint32 => "Uint32"
  | .bigInt64 => "BigInt64"
  | .bigUint64 => "BigUint64"
  | .float32 => "Float32"
  | .float64 => "Float64"
  | .binary => "Binary"
  | .vector => "Vector"
  | .map => "Map"
  | .dict => "Dict"

/-- The binary type as it is written in a schema: its label in lower case. -/
def name (t : BinaryType) : String := String.ofList (t.label.toList.map Char.toLower)

/-- The binary type with the given name. -/
def ofName? (s : String) : Option BinaryType := all.find? fun t => t.name == s

end BinaryType

/-! ## Schemas -/

/-- The parts of a schema that are no schemas themselves. -/
structure SchemaFacts where
  /-- The name under which other schemas can refer to this one. -/
  id : Option String := none
  /-- The name of the schema that stands in the place of this one. -/
  reference : Option String := none
  /-- The form of the values. -/
  type : Option SchemaType := none
  /-- The binary form of the values. -/
  btype : Option BinaryType := none
  /-- The names of the fields that every record has. -/
  required : List String := []
  /-- The greatest number of bytes of a text or blob. -/
  maxLength : Option UInt64 := none
  /-- The greatest number of items of a list. -/
  maxItems : Option UInt64 := none
  /-- What stands for a missing field of this schema. -/
  default : Option Json := none
  deriving Inhabited, Repr

/-- A schema. -/
structure Schema extends SchemaFacts where
  /-- The fields of a record, in the order of declaration, which decides the layout. -/
  properties : List (String × Schema) := []
  /-- The items of a list. -/
  items : Option Schema := none
  /-- The keys of a record with arbitrary keys. -/
  propertyNames : Option Schema := none
  /-- The values of a record with arbitrary keys. -/
  additionalProperties : Option Schema := none
  deriving Inhabited, Repr

namespace Schema

/-! ## Shorthands -/

/-- The schema with nothing but a type. -/
def ofType (t : SchemaType) : Schema := { type := some t }

/-- The schema with a type and a binary type. -/
def scalar (t : SchemaType) (b : BinaryType) : Schema := { type := some t, btype := some b }

/-- The schema of texts of at most so many bytes. -/
def string (maxLength : UInt64) : Schema := { type := some .string, maxLength := some maxLength }

/-- The schema that stands for another one. -/
def referTo (id : String) : Schema := { reference := some id }

/-- The schema with a default. -/
def withDefault (s : Schema) (j : Json) : Schema := { s with default := some j }

/-! ## Queries -/

/-- Whether the values are records. -/
def isRecord (s : Schema) : Bool := s.type == some .object

/-- Whether every record has the field. -/
def isRequired (s : Schema) (name : String) : Bool := s.required.contains name

/-- What stands for a missing field of this schema, as a value. -/
def defaultValue? (s : Schema) : Option Value := s.default.map Value.ofJson

/-- The schemas that the layout of this one depends on, in the order of declaration. -/
def children (s : Schema) : List Schema :=
  s.properties.map (·.2) ++ s.items.toList ++ s.propertyNames.toList
    ++ s.additionalProperties.toList

end Schema

end BinarySchema
