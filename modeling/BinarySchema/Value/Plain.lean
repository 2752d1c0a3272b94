/-
# Values and plain types

`Plain` lists the plain types that a value can be read as, and `Value.read` reads it.  Reading is
strict: only integers read as integers, only numbers as floating-point numbers, and a value of
another form is a mismatch.
-/
import BinarySchema.Value.Notation

namespace BinarySchema

/-- A plain type to read a value as. -/
inductive Plain where
  /-- Truth values. -/
  | bool
  /-- Signed 64-bit integers. -/
  | int64
  /-- Unsigned 64-bit integers. -/
  | uint64
  /-- Floating-point numbers of 64 bits. -/
  | binary64
  /-- Texts. -/
  | text
  /-- Byte strings. -/
  | bytes
  deriving DecidableEq, Repr

namespace Plain

/-- The members of a plain type. -/
def Carrier : Plain → Type
  | .bool => Bool
  | .int64 => Int64
  | .uint64 => UInt64
  | .binary64 => Binary64
  | .text => String
  | .bytes => Bytes

/-- The name of a plain type inside a message. -/
def name : Plain → String
  | .bool => "bool"
  | .int64 => "i64"
  | .uint64 => "u64"
  | .binary64 => "f64"
  | .text => "alloc::string::String"
  | .bytes => "alloc::vec::Vec<u8>"

end Plain

/-- A value that was to be read as a plain type whose form it does not have. -/
structure Mismatch where
  /-- The plain type. -/
  expected : Plain
  /-- The value. -/
  actual : Value

/-- The mismatch, in words. -/
def Mismatch.message (m : Mismatch) : String :=
  "Cannot read " ++ m.expected.name ++ " from " ++ m.actual.description

namespace Value

/-- The value as a member of a plain type, if it has the form for it. -/
def read? (v : Value) : (p : Plain) → Option p.Carrier
  | .bool =>
    match v with
    | .bool b => some b
    | _ => none
  | .int64 =>
    match v with
    | .int _ | .uint _ => v.toInt64?
    | _ => none
  | .uint64 =>
    match v with
    | .int _ | .uint _ => v.toUInt64?
    | _ => none
  | .binary64 =>
    match v with
    | .int _ | .uint _ | .float _ => v.toBinary64?
    | _ => none
  | .text => v.text?
  | .bytes => v.bytes?

/-- Reads the value as a member of a plain type. -/
def read (v : Value) (p : Plain) : Except Mismatch p.Carrier :=
  match v.read? p with
  | some x => .ok x
  | none => .error ⟨p, v⟩

/-- The value that holds an integer of up to 32 bits, or a signed one of 64 bits. -/
def ofInt (n : Int) : Value := .int (Int64.ofInt n)

/-- The value that holds a floating-point number of 32 bits. -/
def ofBinary32 (x : Binary32) : Value := .float x.toBinary64

/-- The value of what may be missing: the hole if it is. -/
def ofOption (v : Option Value) : Value := v.getD .null

end Value

end BinarySchema
