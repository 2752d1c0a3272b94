/-
# The fewest digits that read back

A number of a binary format stands for all reals that round to it.  Among these, `shortest` finds a
decimal with as few digits as possible, and of those the one closest to the number.

The search tries one digit, then two, and so on.  With `n` digits the candidates are the two
neighbours of the number on the grid of decimals with that many digits; whether a candidate lies
among the reals that round to the number is decided by comparing products of naturals.
-/
import BinarySchema.Number.Format

namespace BinarySchema

-- Powers are those of the core library, also where other modules bring their own.
attribute [local instance (2000)] instPowNat instNatPowNat

/-- The decimal `digits * 10 ^ exponent`. -/
structure Decimal where
  /-- The digits, read as one natural. -/
  digits : Nat
  /-- The exponent of the power of ten. -/
  exponent : Int
  deriving DecidableEq, Repr

/-- Which of two equally close decimals is chosen. -/
inductive Tie where
  /-- The one whose last digit is even. -/
  | even
  /-- The greater one. -/
  | up
  deriving DecidableEq, Repr

namespace Decimal

/-- Moves trailing zeros of the digits into the exponent.  At most `limit` are moved. -/
def stripZeros : (limit : Nat) → Decimal → Decimal
  | 0, d => d
  | limit + 1, d =>
    if d.digits ≠ 0 ∧ d.digits % 10 = 0 then stripZeros limit ⟨d.digits / 10, d.exponent + 1⟩ else d

/-- The least `k` such that the dyadic number is below `10 ^ k`.  An estimate from the binary
logarithm is off by one at most. -/
def scaleOf (x : Dyadic) : Int :=
  let below (k : Int) : Bool :=
    x.significand * 2 ^ x.exponent.toNat * 10 ^ (-k).toNat < 2 ^ (-x.exponent).toNat * 10 ^ k.toNat
  let k := ((x.significand.log2 : Int) + x.exponent) * 30103 / 100000 + 1
  if !below k then k + 1 else if below (k - 1) then k - 1 else k

/-- The decimal with `n` digits that reads back as the number, if there is one.  `narrow` says that
the gap below the number is half the gap above it. -/
def withDigits? (tie : Tie) (x : Dyadic) (narrow : Bool) (scale : Int) (n : Nat) : Option Decimal :=
  let grid := scale - n
  -- the number is `x.significand * unit / den` steps of the grid
  let unit := 2 ^ x.exponent.toNat * 10 ^ (-grid).toNat
  let den := 2 ^ (-x.exponent).toNat * 10 ^ grid.toNat
  let num := x.significand * unit
  let low := (4 * x.significand - if narrow then 1 else 2) * unit
  let high := (4 * x.significand + 2) * unit
  let readsBack (c : Nat) : Bool :=
    if x.significand % 2 = 0 then low ≤ 4 * c * den && 4 * c * den ≤ high
    else low < 4 * c * den && 4 * c * den < high
  let floor := num / den
  let rest := num % den
  let upperIsNearer : Bool :=
    match tie with
    | .even => den < 2 * rest || (den == 2 * rest && floor % 2 == 1)
    | .up => den ≤ 2 * rest
  match readsBack floor, readsBack (floor + 1) with
  | true, true => some ⟨if upperIsNearer then floor + 1 else floor, grid⟩
  | true, false => some ⟨floor, grid⟩
  | false, true => some ⟨floor + 1, grid⟩
  | false, false => none

/-- The decimal with the fewest digits that reads back as the given finite magnitude.  Seventeen
digits are enough for every format here; beyond them the exact value stands. -/
def shortest (f : FloatFormat) (tie : Tie) (magnitude : Nat) : Decimal :=
  if magnitude = 0 then ⟨0, 0⟩
  else
    let x := f.decode magnitude
    let step := 2 ^ f.fractionBits
    let narrow := magnitude % step = 0 && step < magnitude
    let scale := scaleOf x
    let found := (List.range 17).findSome? fun n => withDigits? tie x narrow scale (n + 1)
    let exact : Decimal :=
      ⟨x.significand * 2 ^ x.exponent.toNat * 5 ^ (-x.exponent).toNat, min x.exponent 0⟩
    stripZeros 18 (found.getD exact)

end Decimal

end BinarySchema
