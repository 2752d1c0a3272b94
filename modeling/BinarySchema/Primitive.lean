/-
# Primitives

A primitive is stored in a fixed number of bytes, little-endian.  Writing takes any value as a
number: integers wrap around to the width of the primitive, and what is no number is stored as
zero.  Reading takes bytes that are missing at the end as zero.
-/
import BinarySchema.Bytes
import BinarySchema.Schema

namespace BinarySchema

-- Powers are those of the core library, also where other modules bring their own.
attribute [local instance (2000)] instPowNat instNatPowNat

/-- A form of fixed width. -/
inductive Primitive where
  /-- Truth values, in one byte. -/
  | bool
  /-- Signed integers of 8 bits. -/
  | int8
  /-- Unsigned integers of 8 bits. -/
  | uint8
  /-- Signed integers of 16 bits. -/
  | int16
  /-- Unsigned integers of 16 bits. -/
  | uint16
  /-- Signed integers of 32 bits. -/
  | int32
  /-- Unsigned integers of 32 bits. -/
  | uint32
  /-- Signed integers of 64 bits. -/
  | int64
  /-- Unsigned integers of 64 bits. -/
  | uint64
  /-- Floating-point numbers of 32 bits. -/
  | float32
  /-- Floating-point numbers of 64 bits. -/
  | float64
  deriving DecidableEq, Repr, Inhabited

namespace Primitive

/-- The base-two logarithm of the number of bytes. -/
def shift : Primitive → Nat
  | .bool | .int8 | .uint8 => 0
  | .int16 | .uint16 => 1
  | .int32 | .uint32 | .float32 => 2
  | .int64 | .uint64 | .float64 => 3

/-- The number of bytes. -/
def width (p : Primitive) : Nat := 2 ^ p.shift

/-- Whether the primitive holds numbers and not truth values. -/
def isNumeric (p : Primitive) : Bool := p != .bool

/-- All primitives. -/
def all : List Primitive :=
  [.bool, .int8, .uint8, .int16, .uint16, .int32, .uint32, .int64, .uint64, .float32, .float64]

/-- The primitive that a binary type names, if it names one. -/
def ofBinaryType? : BinaryType → Option Primitive
  | .int8 => some .int8
  | .uint8 => some .uint8
  | .int16 => some .int16
  | .uint16 => some .uint16
  | .int32 => some .int32
  | .uint32 => some .uint32
  | .bigInt64 => some .int64
  | .bigUint64 => some .uint64
  | .float32 => some .float32
  | .float64 => some .float64
  | .binary | .vector | .map | .dict => none

/-- The primitive that a schema with the given types denotes, if it denotes one.  Truth values have
one form only; numbers have the one that the binary type names, or else a form of their own. -/
def ofTypes? (t : SchemaType) (b : Option BinaryType) : Option Primitive :=
  match t, b with
  | .boolean, _ => some .bool
  | .integer, none => some .int32
  | .number, none => some .float64
  | .integer, some b | .number, some b => ofBinaryType? b
  | _, _ => none

/-- The primitive as it is named in a description. -/
def label : Primitive → String
  | .bool => "Bool"
  | .int8 => BinaryType.int8.label
  | .uint8 => BinaryType.uint8.label
  | .int16 => BinaryType.int16.label
  | .uint16 => BinaryType.uint16.label
  | .int32 => BinaryType.int32.label
  | .uint32 => BinaryType.uint32.label
  | .int64 => BinaryType.bigInt64.label
  | .uint64 => BinaryType.bigUint64.label
  | .float32 => BinaryType.float32.label
  | .float64 => BinaryType.float64.label

/-- The primitive with the given label. -/
def ofLabel? (s : String) : Option Primitive := all.find? fun p => p.label == s

/-! ## Writing and reading -/

/-- The number that is stored for a value. -/
def code (p : Primitive) (v : Value) : Nat :=
  match p with
  | .bool => if v.toInt64?.getD 0 = 0 then 0 else 1
  | .float32 => (v.toBinary64?.getD ⟨0⟩).toBinary32.bits.toNat
  | .float64 => (v.toBinary64?.getD ⟨0⟩).bits.toNat
  | .uint64 => (v.toUInt64?.getD 0).toNat
  | _ => (v.toInt64?.getD 0).toUInt64.toNat

/-- The bytes that store a value. -/
def write (p : Primitive) (v : Value) : Bytes := LittleEndian.encode p.width (p.code v)

/-- The signed integer whose lowest bits are given. -/
def signed (bits n : Nat) : Value := .int (Int64.ofInt (Int.bmod n (2 ^ bits)))

/-- The value that is stored as a number of the primitive's width. -/
def meaning (p : Primitive) (n : Nat) : Value :=
  match p with
  | .bool => .bool (n != 0)
  | .int8 => signed 8 n
  | .int16 => signed 16 n
  | .int32 => signed 32 n
  | .int64 => signed 64 n
  | .uint8 | .uint16 | .uint32 => .int (Int64.ofNat n)
  | .uint64 => .uint (UInt64.ofNat n)
  | .float32 => .float (Binary32.mk (UInt32.ofNat n)).toBinary64
  | .float64 => .float ⟨UInt64.ofNat n⟩

/-- The value that is stored at the front of a byte string. -/
def read (p : Primitive) (b : Bytes) : Value := p.meaning (LittleEndian.decode (b.take p.width))

end Primitive

end BinarySchema
