/-
# Integers that wrap around

An integer that is stored as a primitive loses the bits that are too many.  What is read back is the
one integer of the primitive's range that is congruent to it, modulo two to the power of the number of
bits (`write_wraps`).  The argument goes by the bytes and not by the integers:

* `write_eq_write_iff` : two integers are stored as the same bytes exactly when they are congruent;
* `exists_integer?_read` : what is read of any bytes is an integer of the range;
* `InRange.eq_of_modEq` : no two integers of the range are congruent.

What is read of the bytes of an integer is stored as these bytes again, so it is congruent to the
integer, whichever way the primitive extends the sign.
-/
import BinarySchema.Proofs.Faults
import BinarySchema.Proofs.Lossless

namespace BinarySchema

/-- The integer that a value is, with a sign or without. -/
def Value.integer? : Value → Option ℤ
  | .int n => some n.toInt
  | .uint n => some n.toNat
  | _ => none

namespace Primitive

variable {p : Primitive} {v w : Value} {m n : ℤ} {b : Bytes}

/-- The range of the primitive, if it holds integers: the least one, and the first one above the
greatest. -/
def bounds? : Primitive → Option (ℤ × ℤ)
  | .uint64 => some (0, 2 ^ 64)
  | p => p.range?

/-- Whether the integer is in the range of the primitive. -/
def InRange (p : Primitive) (m : ℤ) : Prop := ∃ range ∈ p.bounds?, range.1 ≤ m ∧ m < range.2

instance (p : Primitive) (m : ℤ) : Decidable (p.InRange m) :=
  inferInstanceAs (Decidable (∃ range ∈ p.bounds?, range.1 ≤ m ∧ m < range.2))

/-- The integer that a value is, where the value has the form in which the primitive is read: without
a sign for unsigned integers of 64 bits, and with a sign for all others. -/
def integer? (p : Primitive) : Value → Option ℤ
  | .int n => if p = .uint64 then none else some n.toInt
  | .uint n => if p = .uint64 then some n.toNat else none
  | _ => none

/-- Whatever form it has, the integer is the same. -/
theorem integer?_of_primitive (h : p.integer? v = some m) : v.integer? = some m := by
  cases v with
  | int n =>
    rw [integer?] at h
    split_ifs at h
    exact h
  | uint n =>
    rw [integer?] at h
    split_ifs at h
    exact h
  | _ => cases h

/-! ## The range -/

/-- There are as many integers in the range as numbers of so many bits. -/
theorem bounds?_size {low high : ℤ} (h : p.bounds? = some (low, high)) :
    high = low + 2 ^ (8 * p.width) := by
  cases p <;> cases h <;> norm_num [width, shift]

/-- No two integers of the range are congruent. -/
theorem InRange.eq_of_modEq (hm : p.InRange m) (hn : p.InRange n)
    (h : m ≡ n [ZMOD 2 ^ (8 * p.width)]) : m = n := by
  obtain ⟨⟨low, high⟩, hbounds, hm⟩ := hm
  obtain ⟨range, hrange, hn⟩ := hn
  obtain rfl : range = (low, high) := Option.mem_unique hrange hbounds
  have hsize := bounds?_size hbounds
  have hdistance : |n - m| < 2 ^ (8 * p.width) := by
    rw [abs_lt]
    constructor <;> omega
  have hzero := Int.eq_zero_of_abs_lt_dvd h.dvd hdistance
  omega

/-- What is read of any bytes is an integer of the range. -/
theorem exists_integer?_read (hp : p.isInteger = true) (b : Bytes) :
    ∃ m, p.integer? (p.read b) = some m ∧ p.InRange m := by
  have hholds := holds_read (hasKeys_of_isInteger hp) b
  cases p with
  | bool | float32 | float64 => cases hp
  | uint64 =>
    obtain ⟨n, hread⟩ := hholds
    have hhigh : (n.toNat : ℤ) < 2 ^ 64 := by exact_mod_cast n.toNat_lt
    rw [hread]
    exact ⟨n.toNat, rfl, _, rfl, Int.natCast_nonneg _, hhigh⟩
  | _ =>
    obtain ⟨n, low, high, hread, hrange, hlow, hhigh⟩ := hholds
    rw [hread]
    exact ⟨n.toInt, rfl, _, hrange, hlow, hhigh⟩

/-! ## The bytes -/

/-- The bits of a signed integer, as a number, are congruent to it. -/
theorem toNat_modEq (n : Int64) : (n.toUInt64.toNat : ℤ) ≡ n.toInt [ZMOD 2 ^ 64] := by
  rw [toInt_eq_bmod n]
  exact Int.bmod_emod.symm

/-- Taken as a signed number or as an unsigned one, an integer has the same 64 bits. -/
theorem code_integer (hp : p.isInteger = true) (hv : v.integer? = some n) :
    p.code v = (v.toUInt64?.getD 0).toNat := by
  have hbits : (v.toInt64?.getD 0).toUInt64 = v.toUInt64?.getD 0 := by
    cases v with
    | int n => rfl
    | uint n => exact UInt64.toUInt64_toInt64 n
    | _ => cases hv
  cases p with
  | bool | float32 | float64 => cases hp
  | uint64 => rfl
  | _ => exact congrArg UInt64.toNat hbits

/-- The number that is stored for an integer is congruent to it. -/
theorem code_modEq (hp : p.isInteger = true) (hv : v.integer? = some n) :
    (p.code v : ℤ) ≡ n [ZMOD 2 ^ (8 * p.width)] := by
  have hwide : (p.code v : ℤ) ≡ n [ZMOD 2 ^ 64] := by
    rw [code_integer hp hv]
    cases v with
    | int n =>
      cases hv
      exact toNat_modEq n
    | uint n =>
      cases hv
      exact Int.ModEq.refl _
    | _ => cases hv
  have hwidth := Checked.width_le p
  exact hwide.of_dvd (pow_dvd_pow 2 (by omega))

/-- Two integers are stored as the same bytes exactly when they are congruent. -/
theorem write_eq_write_iff (hp : p.isInteger = true) (hv : v.integer? = some m)
    (hw : w.integer? = some n) : p.write v = p.write w ↔ m ≡ n [ZMOD 2 ^ (8 * p.width)] := by
  have hcast : ((256 ^ p.width : ℕ) : ℤ) = 2 ^ (8 * p.width) := by
    rw [pow_mul]
    norm_num
  have hm := code_modEq hp hv
  have hn := code_modEq hp hw
  rw [write, write, LittleEndian.encode_eq_encode_iff, ← Int.natCast_modEq_iff, hcast]
  exact ⟨fun h => hm.symm.trans (h.trans hn), fun h => hm.trans (h.trans hn.symm)⟩

/-! ## Reading back -/

/-- **Wrapping around.**  An integer that is written over the front of a byte string changes as many
bytes as the primitive has, and no others.  What is read of these is the one integer of the
primitive's range that is congruent to it.  And whatever bytes an integer is read of, it is stored
as. -/
theorem write_wraps (hp : p.isInteger = true) (hv : v.integer? = some n)
    (hb : p.width ≤ b.length) :
    (p.write v).length = p.width
    ∧ Checked.writeNumber p v b = .ok ⟨p.write v ++ b.drop p.width, p.width⟩
    ∧ (∀ u, Layout.write u (.primitive p) v b = ⟨p.write v ++ b.drop p.width, p.width⟩)
    ∧ (∃ m, p.integer? (p.read (p.write v)) = some m ∧ p.InRange m
        ∧ m ≡ n [ZMOD 2 ^ (8 * p.width)]
        ∧ ∀ k, p.InRange k → k ≡ n [ZMOD 2 ^ (8 * p.width)] → k = m)
    ∧ ∀ old : Bytes, old.length = p.width → p.write (p.read old) = old := by
  obtain ⟨m, hread, hrange⟩ := exists_integer?_read hp (p.write v)
  -- what was read back is stored as the same bytes, so it differs by a multiple only
  have hagain : p.write (p.read (p.write v)) = p.write v :=
    write_read_write (hasKeys_of_isInteger hp) v
  have hmod : m ≡ n [ZMOD 2 ^ (8 * p.width)] :=
    (write_eq_write_iff hp (integer?_of_primitive hread) hv).mp hagain
  refine ⟨length_write p v, Checked.writeNumber_front p v hb, fun u => Layout.write_primitive u v hb,
    ⟨m, hread, hrange, hmod, fun k hk hkmod => ?_⟩, fun old hold => write_read_integer hp hold⟩
  exact hk.eq_of_modEq hrange (hkmod.trans hmod.symm)

/-- Two bytes are left of a number of 64 bits, and the upper one begins with the sign. -/
theorem write_wraps_int16 :
    let v : Value := .uint 0xffffffffffff9c40
    Checked.writeNumber .int16 v [1, 2, 3] = .ok ⟨[0x40, 0x9c, 3], 2⟩
    ∧ integer? .int16 (read .int16 [0x40, 0x9c]) = some (-25536)
    ∧ write .int16 (read .int16 [0x40, 0x9c]) = [0x40, 0x9c] := by
  intro v
  have hbytes : write .int16 v = [0x40, 0x9c] := by decide
  obtain ⟨-, hwrite, -, ⟨m, hread, -, -, honly⟩, hback⟩ :=
    write_wraps (p := .int16) (v := v) (n := 0xffffffffffff9c40) (b := [1, 2, 3]) rfl rfl (by decide)
  have hm : -25536 = m := honly (-25536) (by decide) (by decide)
  rw [hbytes] at hwrite hread
  rw [← hm] at hread
  exact ⟨hwrite, hread, hback [0x40, 0x9c] rfl⟩

end Primitive

end BinarySchema
