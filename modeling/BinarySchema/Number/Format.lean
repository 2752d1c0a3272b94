/-
# Binary floating-point formats

The finite non-negative numbers of a format are the numbers `m * 2 ^ q` with a significand `m` of
bounded size and an exponent `q` that is not too small.  Each is named by its *magnitude*: the bit
pattern without the sign, read as a number.  Magnitudes are ordered as the numbers they name, and
infinity is the magnitude right after the greatest number.

Every operation computes an exact quotient of naturals and rounds it once, to the nearest number of
the format, a tie going to the even significand.
-/
namespace BinarySchema

-- Powers are those of the core library, also where other modules bring their own.
attribute [local instance (2000)] instPowNat instNatPowNat

/-- A binary floating-point format. -/
structure FloatFormat where
  /-- The number of stored bits of the significand. -/
  fractionBits : Nat
  /-- The number of bits of the exponent. -/
  exponentBits : Nat
  deriving DecidableEq, Repr

/-- The number `significand * 2 ^ exponent`. -/
structure Dyadic where
  /-- The factor before the power of two. -/
  significand : Nat
  /-- The exponent of the power of two. -/
  exponent : Int
  deriving DecidableEq, Repr

/-- The quotient of two naturals, rounded to the nearest natural, a tie going to the even one. -/
def divideRounded (num den : Nat) : Nat :=
  let q := num / den
  let r := num % den
  if 2 * r < den then q
  else if den < 2 * r then q + 1
  else if q % 2 = 0 then q else q + 1

/-- The greatest `k` with `2 ^ k ≤ num / den`, for positive `num` and `den`. -/
def log2Quotient (num den : Nat) : Int :=
  let k : Int := (num.log2 : Int) - den.log2
  if den * 2 ^ k.toNat ≤ num * 2 ^ (-k).toNat then k else k - 1

namespace FloatFormat

/-- The format of 64 bits. -/
def binary64 : FloatFormat := ⟨52, 11⟩

/-- The format of 32 bits. -/
def binary32 : FloatFormat := ⟨23, 8⟩

variable (f : FloatFormat)

/-- The least exponent of a number of the format, its significand taken as a whole number. -/
def leastExponent : Int := 2 - 2 ^ (f.exponentBits - 1) - f.fractionBits

/-- The magnitude of infinity. -/
def infinity : Nat := (2 ^ f.exponentBits - 1) * 2 ^ f.fractionBits

/-- The magnitude of the NaN that stands for all: a quiet one without a payload. -/
def nan : Nat := f.infinity + 2 ^ (f.fractionBits - 1)

/-- The bit that holds the sign, as a number. -/
def signBit : Nat := 2 ^ (f.fractionBits + f.exponentBits)

/-- The number that a finite magnitude names. -/
def decode (magnitude : Nat) : Dyadic :=
  let step := 2 ^ f.fractionBits
  let binade := magnitude / step
  if binade = 0 then ⟨magnitude, f.leastExponent⟩
  else ⟨step + magnitude % step, f.leastExponent + binade - 1⟩

/-- The magnitude nearest to `num / den`.  What lies beyond the greatest number is infinite. -/
def ofQuotient (num den : Nat) : Nat :=
  if num = 0 then 0
  else
    let e := max (log2Quotient num den - f.fractionBits) f.leastExponent
    let m := divideRounded (num * 2 ^ (-e).toNat) (den * 2 ^ e.toNat)
    min ((e - f.leastExponent).toNat * 2 ^ f.fractionBits + m) f.infinity

/-- The magnitude nearest to a dyadic number. -/
def ofDyadic (d : Dyadic) : Nat :=
  f.ofQuotient (d.significand * 2 ^ d.exponent.toNat) (2 ^ (-d.exponent).toNat)

/-- The magnitude nearest to `digits * 10 ^ exponent`. -/
def ofDecimal (digits : Nat) (exponent : Int) : Nat :=
  f.ofQuotient (digits * 10 ^ exponent.toNat) (10 ^ (-exponent).toNat)

/-- The magnitude nearest to the product of two finite ones. -/
def multiply (a b : Nat) : Nat :=
  let x := f.decode a
  let y := f.decode b
  f.ofDyadic ⟨x.significand * y.significand, x.exponent + y.exponent⟩

/-- The magnitude nearest to the quotient of two finite ones. -/
def divide (a b : Nat) : Nat :=
  let x := f.decode a
  let y := f.decode b
  let e := x.exponent - y.exponent
  f.ofQuotient (x.significand * 2 ^ e.toNat) (y.significand * 2 ^ (-e).toNat)

end FloatFormat

end BinarySchema
