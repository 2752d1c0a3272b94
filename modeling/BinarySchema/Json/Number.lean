/-
# JSON numbers

The grammar of JSON numbers, and what a number means.

The digits of a number are gathered into an integer of 64 bits.  Whole digits that no longer fit
count as a power of ten, and digits after the point that no longer fit are dropped.  A number that
is not a whole one is that integer as a floating-point number, times or divided by the power of
ten: it is rounded once at the integer and once more at each product or quotient.
-/
import BinarySchema.Json
import BinarySchema.Number.Numeral

namespace BinarySchema

namespace Json

/-- A number taken apart. -/
structure NumberText where
  /-- Whether there is a minus sign. -/
  isNegative : Bool
  /-- The digits before the point. -/
  whole : List Char
  /-- The digits after the point, if there is one. -/
  fraction : Option (List Char)
  /-- Whether the exponent has a minus sign, and its digits, if there is one. -/
  exponent : Option (Bool × List Char)

namespace NumberText

/-- Takes digits, at least one. -/
def digits? (s : List Char) : Option (List Char × List Char) :=
  let digits := s.takeWhile Char.isDigit
  if digits = [] then none else some (digits, s.dropWhile Char.isDigit)

/-- Takes the digits before the point: no zero stands before another digit. -/
def whole? (s : List Char) : Option (List Char × List Char) := do
  let (digits, rest) ← digits? s
  if digits.head? = some '0' ∧ 1 < digits.length then none else some (digits, rest)

/-- Takes the digits after the point, if there is one. -/
def fraction? : List Char → Option (Option (List Char) × List Char)
  | '.' :: s => (digits? s).map fun (digits, rest) => (some digits, rest)
  | s => some (none, s)

/-- Takes the exponent, which ends the number. -/
def exponent? : List Char → Option (Option (Bool × List Char))
  | [] => some none
  | e :: s => do
    if e ≠ 'e' ∧ e ≠ 'E' then none
    let (isNegative, s) := Numeral.splitSign s
    let (digits, rest) ← digits? s
    if rest = [] then some (some (isNegative, digits)) else none

/-- Takes a number apart, if the text is one. -/
def ofText? (s : List Char) : Option NumberText := do
  let (isNegative, s) := match s with
    | '-' :: rest => (true, rest)
    | _ => (false, s)
  let (whole, s) ← whole? s
  let (fraction, s) ← fraction? s
  let exponent ← exponent? s
  return ⟨isNegative, whole, fraction, exponent⟩

/-! ## The value of a number -/

/-- An integer of at most 64 bits times a power of ten. -/
structure Scaled where
  /-- The integer. -/
  significand : Nat
  /-- The exponent of the power of ten. -/
  exponent : Int

/-- Gathers whole digits.  From the first that no longer fits on, each counts as a factor of ten. -/
def gatherWhole (acc : Nat) : List Char → Scaled
  | [] => ⟨acc, 0⟩
  | c :: rest =>
    let n := Numeral.ofDigits acc [c]
    if n < UInt64.size then gatherWhole n rest else ⟨acc, (c :: rest).length⟩

/-- Gathers digits after the point.  From the first that no longer fits on, they are dropped. -/
def gatherFraction (x : Scaled) : List Char → Scaled
  | [] => x
  | c :: rest =>
    let n := Numeral.ofDigits x.significand [c]
    if n < UInt64.size then gatherFraction ⟨n, x.exponent - 1⟩ rest else x

/-- The magnitude of a power of ten. -/
def powerOfTen (n : Nat) : Nat := FloatFormat.binary64.ofDecimal 1 n

/-- Divides a magnitude by `10 ^ e`, in steps whose divisor is finite. -/
def divideByPower (m e : Nat) : Nat :=
  if e ≤ 308 then FloatFormat.binary64.divide m (powerOfTen e)
  else if m = 0 then 0
  else divideByPower (FloatFormat.binary64.divide m (powerOfTen 308)) (e - 308)
termination_by e

/-- Multiplies a magnitude by `10 ^ e`, if the result is finite. -/
def multiplyByPower? (m e : Nat) : Option Nat :=
  if m = 0 then some 0
  else if e ≤ 308 then
    let product := FloatFormat.binary64.multiply m (powerOfTen e)
    if product < FloatFormat.binary64.infinity then some product else none
  else none

/-- The magnitude of a scaled integer, if it is finite. -/
def Scaled.magnitude? (x : Scaled) : Option Nat :=
  let m := FloatFormat.binary64.ofQuotient x.significand 1
  if 0 ≤ x.exponent then multiplyByPower? m x.exponent.toNat
  else some (divideByPower m (-x.exponent).toNat)

/-- The value of a number, or `none` if it is out of range. -/
def value? (t : NumberText) : Option Number :=
  let whole := gatherWhole 0 t.whole
  let float (x : Scaled) : Option Number :=
    x.magnitude?.map fun m => .float (.ofMagnitude t.isNegative m)
  match t.fraction, t.exponent with
  | none, none =>
    if whole.exponent ≠ 0 then float whole
    else if !t.isNegative then some (.natural (UInt64.ofNat whole.significand))
    else if 0 < whole.significand ∧ Int64.minValue.toInt ≤ -whole.significand then
      some (.negative (Int64.ofInt (-whole.significand)))
    else float whole
  | fraction, exponent =>
    let x := gatherFraction whole (fraction.getD [])
    match exponent with
    | none => float x
    | some (true, digits) => float { x with exponent := x.exponent - Numeral.ofDigits 0 digits }
    | some (false, digits) => float { x with exponent := x.exponent + Numeral.ofDigits 0 digits }

end NumberText

end Json

end BinarySchema
