/-
# Numerals are read back

The decimal numeral of an integer, as it is printed for a key, reads as that integer: a signed one
by `signed?_toString`, an unsigned one by `unsigned_toString`.  Hence a key that an integer or a
truth value prints as stands for it again (`Value.ofKey_int`, `Value.ofKey_uint`,
`Value.ofKey_bool`).
-/
import Mathlib
import BinarySchema.Layout.Key

namespace BinarySchema

namespace Numeral

/-! ## Digits -/

theorem isDigit_of_mem_toDigits {n : Nat} {c : Char} (h : c ∈ Nat.toDigits 10 n) :
    c.isDigit = true :=
  Nat.isDigit_of_mem_toDigits (by decide) (by decide) h

theorem all_isDigit_toDigits (n : Nat) : (Nat.toDigits 10 n).all Char.isDigit = true := by
  rw [List.all_eq_true]
  intro c hc
  exact isDigit_of_mem_toDigits hc

/-- The digits of a number denote it. -/
theorem ofDigits_toDigits (n : Nat) : ofDigits 0 (Nat.toDigits 10 n) = n := by
  have h := Nat.ofDigitChars_ten_toDigits (n := n)
  rw [Nat.ofDigitChars_eq_foldl] at h
  rw [ofDigits, h]

theorem ofDigits_cons (acc : Nat) (c : Char) (cs : List Char) :
    ofDigits acc (c :: cs) = ofDigits (10 * acc + (c.toNat - '0'.toNat)) cs := by
  rw [ofDigits, ofDigits, List.foldl_cons]

/-- Further digits never make a number smaller. -/
theorem le_ofDigits (acc : Nat) (cs : List Char) : acc ≤ ofDigits acc cs := by
  induction cs generalizing acc with
  | nil => exact le_refl acc
  | cons c cs ih =>
    rw [ofDigits_cons]
    exact le_trans (by omega) (ih _)

/-- Digits have no sign in front. -/
theorem splitSign_of_all_isDigit {cs : List Char} (h : cs.all Char.isDigit = true) :
    splitSign cs = (false, cs) := by
  cases cs with
  | nil => rfl
  | cons c cs =>
    rw [List.all_cons, Bool.and_eq_true] at h
    unfold splitSign
    split
    · next heq =>
      rw [List.cons.injEq] at heq
      rw [heq.1] at h
      exact absurd h.1 (by decide)
    · next heq =>
      rw [List.cons.injEq] at heq
      rw [heq.1] at h
      exact absurd h.1 (by decide)
    · rfl

/-! ## Signed numerals -/

theorem signed?_toDigits {n : Nat} :
    signed? (Nat.toDigits 10 n) = if n < 2 ^ 63 then some (Int64.ofInt n) else none := by
  have hdigits : Nat.toDigits 10 n ≠ [] ∧ (Nat.toDigits 10 n).all Char.isDigit = true :=
    ⟨Nat.toDigits_ne_nil, all_isDigit_toDigits n⟩
  rw [signed?, splitSign_of_all_isDigit (all_isDigit_toDigits n)]
  simp only [if_pos hdigits, ofDigits_toDigits, Bool.false_eq_true, if_false, Int64.toInt_minValue,
    Int64.toInt_maxValue]
  by_cases h : n < 2 ^ 63
  · rw [if_pos h, if_pos (by omega)]
  · rw [if_neg h, if_neg (by omega)]

theorem signed?_minus_toDigits {n : Nat} (h : n ≤ 2 ^ 63) :
    signed? ('-' :: Nat.toDigits 10 n) = some (Int64.ofInt (-n)) := by
  have hdigits : Nat.toDigits 10 n ≠ [] ∧ (Nat.toDigits 10 n).all Char.isDigit = true :=
    ⟨Nat.toDigits_ne_nil, all_isDigit_toDigits n⟩
  unfold signed? splitSign
  simp only [if_pos hdigits, ofDigits_toDigits, if_true, Int64.toInt_minValue, Int64.toInt_maxValue]
  rw [if_pos (by omega)]

/-- An integer is printed as its digits, behind a minus sign if it is negative. -/
theorem toList_toString (n : Int) :
    (toString n).toList
      = if n < 0 then '-' :: Nat.toDigits 10 n.natAbs else Nat.toDigits 10 n.natAbs := by
  rw [Int.toString_eq_repr, Int.repr_eq_if]
  by_cases h : 0 ≤ n
  · rw [if_pos h, if_neg (by omega), Nat.toList_repr, show n.toNat = n.natAbs by omega]
  · rw [if_neg h, if_pos (by omega), String.toList_append, Nat.toList_repr,
      show (-n).toNat = n.natAbs by omega]
    rfl

/-- The numeral of a signed integer reads as the integer. -/
theorem signed?_toString (n : Int64) : signed? (toString n.toInt).toList = some n := by
  have hlow : -2 ^ 63 ≤ n.toInt := n.le_toInt
  have hhigh : n.toInt < 2 ^ 63 := n.toInt_lt
  rw [toList_toString]
  split_ifs with h
  · rw [signed?_minus_toDigits (by omega), show (-(n.toInt.natAbs : Int)) = n.toInt by omega,
      Int64.ofInt_toInt]
  · rw [signed?_toDigits, if_pos (by omega), show (n.toInt.natAbs : Int) = n.toInt by omega,
      Int64.ofInt_toInt]

/-! ## Unsigned numerals -/

theorem unsignedDigits_of_all_isDigit {cs : List Char} (h : cs.all Char.isDigit = true)
    (acc : Nat) (hlt : ofDigits acc cs < UInt64.size) :
    unsignedDigits acc cs = .ok (UInt64.ofNat (ofDigits acc cs)) := by
  induction cs generalizing acc with
  | nil => rfl
  | cons c cs ih =>
    rw [List.all_cons, Bool.and_eq_true] at h
    rw [ofDigits_cons] at hlt ⊢
    rw [unsignedDigits, digit?, if_pos h.1]
    have hsmall := le_ofDigits (10 * acc + (c.toNat - '0'.toNat)) cs
    dsimp only
    rw [if_pos (by omega), ih h.2 _ hlt]

theorem unsigned_of_all_isDigit {cs : List Char} (hne : cs ≠ []) (h : cs.all Char.isDigit = true) :
    unsigned cs = unsignedDigits 0 cs := by
  unfold unsigned
  split
  · exact absurd rfl hne
  · exact absurd h (by decide)
  · rw [List.all_cons, Bool.and_eq_true] at h
    exact absurd h.1 (by decide)
  · rfl

/-- The numeral of an unsigned integer reads as the integer. -/
theorem unsigned_toString (n : UInt64) : unsigned (toString n.toNat).toList = .ok n := by
  have hlt : ofDigits 0 (Nat.toDigits 10 n.toNat) < UInt64.size := by
    rw [ofDigits_toDigits]
    exact n.toNat_lt
  rw [Nat.toString_eq_repr, Nat.toList_repr,
    unsigned_of_all_isDigit Nat.toDigits_ne_nil (all_isDigit_toDigits _),
    unsignedDigits_of_all_isDigit (all_isDigit_toDigits _) 0 hlt, ofDigits_toDigits,
    UInt64.ofNat_toNat]

end Numeral

/-! ## Keys -/

namespace Value

/-- The key of a signed integer stands for it. -/
theorem ofKey_int (n : Int64) : ofKey (toString n.toInt) = .int n := by
  unfold ofKey
  simp only [Numeral.signed?_toString]

/-- The key of an unsigned integer stands for it, or for the same number as a signed one. -/
theorem ofKey_uint (n : UInt64) :
    ofKey (toString n.toNat) = if n.toNat < 2 ^ 63 then .int n.toInt64 else .uint n := by
  have hsigned : Numeral.signed? (toString n.toNat).toList
      = if n.toNat < 2 ^ 63 then some (Int64.ofInt n.toNat) else none := by
    rw [Nat.toString_eq_repr, Nat.toList_repr, Numeral.signed?_toDigits]
  unfold ofKey
  simp only [hsigned]
  by_cases h : n.toNat < 2 ^ 63
  · have hint : Int64.ofInt n.toNat = n.toInt64 := by
      rw [← Int64.toBitVec_inj]
      simp
    simp only [if_pos h, hint]
  · simp only [if_neg h, Numeral.unsigned_toString]

/-- The key of a truth value stands for it. -/
theorem ofKey_bool (b : Bool) : ofKey (toString b) = .bool b := by
  cases b <;> rfl

end Value

end BinarySchema
