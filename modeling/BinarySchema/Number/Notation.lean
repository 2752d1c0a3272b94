/-
# Writing floating-point numbers

How the digits of a number are laid out is decided by a `NumberStyle`.  There are three of them in
this library, one for each text that shows a floating-point number.
-/
import BinarySchema.Number.Binary
import BinarySchema.Number.Shortest

namespace BinarySchema

/-- The decisions that turn the shortest digits of a number into a text. -/
structure NumberStyle where
  /-- Which exponents of the leading digit are written positionally, and not by a power of ten. -/
  positional : Int → Bool
  /-- Whether a whole number that is written positionally ends in `.0`. -/
  pointZero : Bool
  /-- Whether the exponent of a power of ten shows its sign even if it is a plus. -/
  signedExponent : Bool
  /-- Which of two equally close decimals is written. -/
  tie : Tie

namespace NumberStyle

/-- Numbers inside a described value: positional from `0.0001` up to `10 ^ 16`, always with a
point, and otherwise by a power of ten. -/
def described : NumberStyle := ⟨fun e => -4 ≤ e && e < 16, true, false, .up⟩

/-- Numbers as record keys: always positional, without a needless point. -/
def key : NumberStyle := ⟨fun _ => true, false, false, .up⟩

/-- Numbers in JSON text: positional from `0.00001` up to `10 ^ 16`, always with a point, and
otherwise by a power of ten whose exponent shows its sign. -/
def json : NumberStyle := ⟨fun e => -5 ≤ e && e < 16, true, true, .even⟩

/-- Writes digits with the decimal point after the first `point` of them. -/
def positionalText (s : NumberStyle) (digits : List Char) (point : Int) : List Char :=
  if point ≤ 0 then '0' :: '.' :: (List.replicate (-point).toNat '0' ++ digits)
  else if digits.length ≤ point.toNat then
    digits ++ List.replicate (point.toNat - digits.length) '0'
      ++ if s.pointZero then ['.', '0'] else []
  else digits.take point.toNat ++ '.' :: digits.drop point.toNat

/-- Writes digits as a number from one up to ten and a power of ten. -/
def scientificText (s : NumberStyle) (digits : List Char) (exponent : Int) : List Char :=
  let sign : List Char := if s.signedExponent && 0 ≤ exponent then ['+'] else []
  digits.take 1 ++ (if digits.length ≤ 1 then [] else '.' :: digits.drop 1)
    ++ 'e' :: (sign ++ (toString exponent).toList)

/-- Writes the number with the given sign and magnitude. -/
def text (s : NumberStyle) (f : FloatFormat) (negative : Bool) (magnitude : Nat) : List Char :=
  let sign := if negative then ['-'] else []
  if f.infinity < magnitude then ['N', 'a', 'N']
  else if magnitude = f.infinity then sign ++ ['i', 'n', 'f']
  else if magnitude = 0 then sign ++ s.positionalText ['0'] 1
  else
    let d := Decimal.shortest f s.tie magnitude
    let digits := (toString d.digits).toList
    let point := digits.length + d.exponent
    if s.positional (point - 1) then sign ++ s.positionalText digits point
    else sign ++ s.scientificText digits (point - 1)

end NumberStyle

/-- The text of a number of 64 bits. -/
def Binary64.text (x : Binary64) (s : NumberStyle) : String :=
  String.ofList (s.text .binary64 x.isNegative x.magnitude)

/-- The text of a number of 32 bits. -/
def Binary32.text (x : Binary32) (s : NumberStyle) : String :=
  String.ofList (s.text .binary32 x.isNegative x.magnitude)

end BinarySchema
