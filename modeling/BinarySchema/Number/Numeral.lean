/-
# Reading numerals

Numerals of the language of record keys and settings.  Digits are ASCII digits, a sign may stand in
front, and nothing else may: no blanks and no separators.
-/
import BinarySchema.Number.Binary

namespace BinarySchema

/-- Why a text is no numeral of an unsigned 64-bit integer. -/
inductive NumeralError where
  /-- There is no character. -/
  | empty
  /-- A character is no digit. -/
  | invalidDigit
  /-- The number is too large. -/
  | tooLarge
  deriving DecidableEq, Repr

namespace NumeralError

/-- The reason, in words. -/
def message : NumeralError → String
  | .empty => "cannot parse integer from empty string"
  | .invalidDigit => "invalid digit found in string"
  | .tooLarge => "number too large to fit in target type"

end NumeralError

namespace Numeral

/-- The value of an ASCII digit. -/
def digit? (c : Char) : Option Nat := if c.isDigit then some (c.toNat - '0'.toNat) else none

/-- The number that digits denote, `acc` being the number before them. -/
def ofDigits (acc : Nat) (digits : List Char) : Nat :=
  digits.foldl (fun n c => 10 * n + (c.toNat - '0'.toNat)) acc

/-- Reads digits into a number of at most 64 bits, stopping at the first that does not fit. -/
def unsignedDigits (acc : Nat) : List Char → Except NumeralError UInt64
  | [] => .ok (UInt64.ofNat acc)
  | c :: rest =>
    match digit? c with
    | none => .error .invalidDigit
    | some d =>
      let n := 10 * acc + d
      if n < UInt64.size then unsignedDigits n rest else .error .tooLarge

/-- Reads an unsigned 64-bit integer, with or without a plus sign. -/
def unsigned : List Char → Except NumeralError UInt64
  | [] => .error .empty
  | ['+'] => .error .invalidDigit
  | '+' :: digits => unsignedDigits 0 digits
  | digits => unsignedDigits 0 digits

/-- Splits off a sign.  The first part says whether it is a minus. -/
def splitSign : List Char → Bool × List Char
  | '-' :: rest => (true, rest)
  | '+' :: rest => (false, rest)
  | s => (false, s)

/-- Reads a signed 64-bit integer, with or without a sign. -/
def signed? (s : List Char) : Option Int64 :=
  let (negative, digits) := splitSign s
  if digits ≠ [] ∧ digits.all Char.isDigit then
    let magnitude : Int := ofDigits 0 digits
    let n := if negative then -magnitude else magnitude
    if Int64.minValue.toInt ≤ n ∧ n ≤ Int64.maxValue.toInt then some (Int64.ofInt n) else none
  else none

/-- The number that the digits of an exponent denote.  Further digits of an exponent that is out of
all bounds already are dropped. -/
def exponentOfDigits (digits : List Char) : Nat :=
  digits.foldl (fun n c => if n < 0x10000 then 10 * n + (c.toNat - '0'.toNat) else n) 0

/-- Reads the part of a numeral after the digits: nothing, or an exponent. -/
def exponent? : List Char → Option Int
  | [] => some 0
  | e :: rest =>
    let (negative, digits) := splitSign rest
    if (e = 'e' ∨ e = 'E') ∧ digits ≠ [] ∧ digits.all Char.isDigit then
      let n : Int := exponentOfDigits digits
      some (if negative then -n else n)
    else none

/-- Reads the names of the values that are no finite numbers, in any case. -/
def named? (negative : Bool) (s : List Char) : Option Binary64 :=
  match s.map Char.toLower with
  | ['n', 'a', 'n'] => some (.ofMagnitude negative FloatFormat.binary64.nan)
  | ['i', 'n', 'f'] | ['i', 'n', 'f', 'i', 'n', 'i', 't', 'y'] =>
    some (.ofMagnitude negative FloatFormat.binary64.infinity)
  | _ => none

/-- Reads a floating-point numeral: digits with at most one point among or beside them, and
possibly an exponent.  The result is the nearest number. -/
def float? (s : List Char) : Option Binary64 :=
  let (negative, s) := splitSign s
  let whole := s.takeWhile Char.isDigit
  let afterWhole := s.dropWhile Char.isDigit
  let (fraction, rest) :=
    match afterWhole with
    | '.' :: t => (t.takeWhile Char.isDigit, t.dropWhile Char.isDigit)
    | t => ([], t)
  if whole = [] ∧ fraction = [] then named? negative s
  else
    (exponent? rest).map fun e =>
      .ofDecimal negative (ofDigits 0 (whole ++ fraction)) (e - fraction.length)

end Numeral

end BinarySchema
