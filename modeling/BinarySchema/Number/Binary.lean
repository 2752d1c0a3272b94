/-
# Floating-point numbers of 64 and 32 bits

A number is kept as its bits, so that two numbers are the same value exactly when they have the
same bits.  Comparison as numbers is `Binary64.sameNumber`: a NaN differs from itself, and the two
zeros agree.
-/
import BinarySchema.Number.Format

namespace BinarySchema

-- Powers are those of the core library, also where other modules bring their own.
attribute [local instance (2000)] instPowNat instNatPowNat

/-- A floating-point number of 64 bits. -/
structure Binary64 where
  /-- Sign, exponent and fraction, most significant first. -/
  bits : UInt64
  deriving DecidableEq, Repr, Inhabited

/-- A floating-point number of 32 bits. -/
structure Binary32 where
  /-- Sign, exponent and fraction, most significant first. -/
  bits : UInt32
  deriving DecidableEq, Repr, Inhabited

namespace Binary64

/-- The number with the given sign and magnitude. -/
def ofMagnitude (negative : Bool) (magnitude : Nat) : Binary64 :=
  ⟨UInt64.ofNat (magnitude + if negative then FloatFormat.binary64.signBit else 0)⟩

/-- Whether the sign bit is set. -/
def isNegative (x : Binary64) : Bool := FloatFormat.binary64.signBit ≤ x.bits.toNat

/-- The bits without the sign. -/
def magnitude (x : Binary64) : Nat := x.bits.toNat % FloatFormat.binary64.signBit

/-- Whether the bits name no number. -/
def isNaN (x : Binary64) : Bool := FloatFormat.binary64.infinity < x.magnitude

/-- Equality as numbers. -/
def sameNumber (x y : Binary64) : Bool :=
  !x.isNaN && !y.isNaN && (x.bits == y.bits || (x.magnitude == 0 && y.magnitude == 0))

/-- The nearest number to an integer. -/
def ofInt (n : Int) : Binary64 :=
  ofMagnitude (n < 0) (FloatFormat.binary64.ofQuotient n.natAbs 1)

/-- The nearest number to `digits * 10 ^ exponent`, with a sign. -/
def ofDecimal (negative : Bool) (digits : Nat) (exponent : Int) : Binary64 :=
  ofMagnitude negative (FloatFormat.binary64.ofDecimal digits exponent)

/-- The integer part, with infinities at `bound` and NaN at zero. -/
def truncate (x : Binary64) (bound : Nat) : Int :=
  let whole : Nat :=
    if x.isNaN then 0
    else if x.magnitude = FloatFormat.binary64.infinity then bound
    else
      let d := FloatFormat.binary64.decode x.magnitude
      d.significand * 2 ^ d.exponent.toNat / 2 ^ (-d.exponent).toNat
  if x.isNegative then -(whole : Int) else whole

/-- The integer part, brought to the nearest signed 64-bit integer. -/
def toInt64 (x : Binary64) : Int64 :=
  Int64.ofInt
    (max Int64.minValue.toInt (min Int64.maxValue.toInt (x.truncate UInt64.size)))

/-- The integer part, brought to the nearest unsigned 64-bit integer. -/
def toUInt64 (x : Binary64) : UInt64 :=
  UInt64.ofNat (min (UInt64.size - 1) (x.truncate UInt64.size).toNat)

/-- The nearest number of 32 bits.  A NaN becomes a quiet NaN and keeps the leading bits of its
payload. -/
def toBinary32 (x : Binary64) : Binary32 :=
  let magnitude : Nat :=
    if x.isNaN then
      0x7fc00000 ||| ((x.magnitude - FloatFormat.binary64.infinity) >>> 29)
    else if x.magnitude = FloatFormat.binary64.infinity then FloatFormat.binary32.infinity
    else FloatFormat.binary32.ofDyadic (FloatFormat.binary64.decode x.magnitude)
  ⟨UInt32.ofNat (magnitude + if x.isNegative then FloatFormat.binary32.signBit else 0)⟩

end Binary64

namespace Binary32

/-- Whether the sign bit is set. -/
def isNegative (x : Binary32) : Bool := FloatFormat.binary32.signBit ≤ x.bits.toNat

/-- The bits without the sign. -/
def magnitude (x : Binary32) : Nat := x.bits.toNat % FloatFormat.binary32.signBit

/-- The same number with 64 bits.  A NaN becomes a quiet NaN and keeps its payload. -/
def toBinary64 (x : Binary32) : Binary64 :=
  let infinity := FloatFormat.binary32.infinity
  let magnitude : Nat :=
    if infinity < x.magnitude then FloatFormat.binary64.nan ||| ((x.magnitude - infinity) <<< 29)
    else if x.magnitude = infinity then FloatFormat.binary64.infinity
    else FloatFormat.binary64.ofDyadic (FloatFormat.binary32.decode x.magnitude)
  .ofMagnitude x.isNegative magnitude

end Binary32

end BinarySchema
