/-
# Primitives are read back

`Primitive.Holds` lists the values that a primitive stores without loss: truth values, the integers
of its range, and floating-point numbers of 64 bits.  Such a value is read back from its bytes
(`Primitive.read_write`), and it is also found again behind the key that it prints as
(`Primitive.write_ofKey`).
-/
import BinarySchema.Proofs.Bytes
import BinarySchema.Proofs.Numeral
import BinarySchema.Primitive

namespace BinarySchema

namespace Primitive

/-- The least integer that is stored, and the first one above the greatest, for the primitives whose
values are signed integers of 64 bits. -/
def range? : Primitive → Option (Int × Int)
  | .int8 => some (-2 ^ 7, 2 ^ 7)
  | .uint8 => some (0, 2 ^ 8)
  | .int16 => some (-2 ^ 15, 2 ^ 15)
  | .uint16 => some (0, 2 ^ 16)
  | .int32 => some (-2 ^ 31, 2 ^ 31)
  | .uint32 => some (0, 2 ^ 32)
  | .int64 => some (-2 ^ 63, 2 ^ 63)
  | .bool | .uint64 | .float32 | .float64 => none

/-- Whether the value is one that the primitive stores without loss.  Numbers of 32 bits are left
out, since only some floating-point numbers of 64 bits are such. -/
def Holds (p : Primitive) (v : Value) : Prop :=
  match p with
  | .bool => ∃ b, v = .bool b
  | .uint64 => ∃ n, v = .uint n
  | .float64 => ∃ x, v = .float x
  | .float32 => False
  | p => ∃ n low high, v = .int n ∧ p.range? = some (low, high) ∧ low ≤ n.toInt ∧ n.toInt < high

/-- A value that is stored without loss is no hole. -/
theorem Holds.ne_null {p : Primitive} {v : Value} (h : p.Holds v) : v ≠ .null := by
  rintro rfl
  cases p <;> simp [Holds] at h

/-! ## Bytes -/

theorem width_pos (p : Primitive) : 0 < p.width := by
  unfold width
  exact Nat.two_pow_pos _

/-- A shift multiplies by the width, where the product is a 64-bit number. -/
theorem shiftLeft_mod {p : Primitive} {n : Nat} (h : n * p.width < UInt64.size) :
    n <<< p.shift % UInt64.size = n * p.width := by
  rw [Nat.shiftLeft_eq, ← width, Nat.mod_eq_of_lt h]

@[simp] theorem length_write (p : Primitive) (v : Value) : (p.write v).length = p.width := by
  rw [write, LittleEndian.length_encode]

/-- Taking more bytes than the primitive has changes nothing. -/
theorem read_take (p : Primitive) (b : Bytes) : p.read (b.take p.width) = p.read b := by
  rw [read, read, List.take_take, Nat.min_self]

/-- What is read after a write: the meaning of the lowest bytes of the stored number. -/
theorem read_write_eq (p : Primitive) (v : Value) :
    p.read (p.write v) = p.meaning (p.code v % 256 ^ p.width) := by
  rw [read, List.take_of_length_le (by rw [length_write]), write, LittleEndian.decode_encode_mod]

/-! ## Integers -/

/-- The bits of a signed integer, as a number. -/
theorem toInt_eq_bmod (n : Int64) : n.toInt = Int.bmod n.toUInt64.toNat (2 ^ 64) := by
  have h := BitVec.toInt_eq_toNat_bmod n.toBitVec
  rw [Int64.toNat_toBitVec] at h
  exact h

/-- The lowest bits of a signed integer determine it, if it is in the range of so many bits. -/
theorem bmod_toNat_mod {n : Int64} {bits : Nat} (hbits : bits ≤ 64) (hpos : 0 < bits)
    (hlow : -2 ^ (bits - 1) ≤ n.toInt) (hhigh : n.toInt < 2 ^ (bits - 1)) :
    Int.bmod ((n.toUInt64.toNat % 2 ^ bits : Nat) : Int) (2 ^ bits) = n.toInt := by
  have hmod : Int.bmod ((n.toUInt64.toNat % 2 ^ bits : Nat) : Int) (2 ^ bits)
      = Int.bmod n.toInt (2 ^ bits) := by
    rw [toInt_eq_bmod n]
    have hdvd : 2 ^ bits ∣ 2 ^ 64 := Nat.pow_dvd_pow 2 hbits
    rw [Int.bmod_bmod_of_dvd hdvd, Int.natCast_mod, Int.emod_bmod]
  have htwo : (2 : Nat) ^ bits = 2 * 2 ^ (bits - 1) := by
    rw [← Nat.pow_succ', Nat.succ_eq_add_one, Nat.sub_add_cancel hpos]
  rw [hmod, htwo]
  rw [Int.bmod_eq_of_le_mul_two] <;> push_cast <;> omega

/-- The same for a range that begins at zero. -/
theorem toNat_mod {n : Int64} {bits : Nat} (hlow : 0 ≤ n.toInt)
    (hhigh : n.toInt < 2 ^ bits) : ((n.toUInt64.toNat % 2 ^ bits : Nat) : Int) = n.toInt := by
  have hsmall : n.toInt < 2 ^ 63 := n.toInt_lt
  have hbound := n.toUInt64.toNat_lt
  have hnat : (n.toUInt64.toNat : Int) = n.toInt := by
    have h := toInt_eq_bmod n
    rw [Int.bmod_def] at h
    split_ifs at h <;> omega
  rw [Nat.mod_eq_of_lt, hnat]
  zify
  rw [hnat]
  exact_mod_cast hhigh

/-- The lowest bits of a signed integer stand for it, if it is in their range. -/
theorem signed_mod {n : Int64} (bits : Nat) (hbits : bits ≤ 64) (hpos : 0 < bits)
    (hlow : -2 ^ (bits - 1) ≤ n.toInt) (hhigh : n.toInt < 2 ^ (bits - 1)) :
    signed bits (n.toUInt64.toNat % 2 ^ bits) = .int n := by
  rw [signed, bmod_toNat_mod hbits hpos hlow hhigh, Int64.ofInt_toInt]

/-- The same for a range that begins at zero. -/
theorem ofNat_mod {n : Int64} (bits : Nat) (hlow : 0 ≤ n.toInt)
    (hhigh : n.toInt < 2 ^ bits) : Int64.ofNat (n.toUInt64.toNat % 2 ^ bits) = n := by
  rw [← Int64.ofInt_eq_ofNat, toNat_mod hlow hhigh, Int64.ofInt_toInt]

/-! ## Reading back -/

/-- **Primitives.**  A value that is stored without loss is read back. -/
theorem read_write {p : Primitive} {v : Value} (h : p.Holds v) : p.read (p.write v) = v := by
  rw [read_write_eq]
  cases p with
  | bool =>
    obtain ⟨b, rfl⟩ := h
    cases b <;> rfl
  | uint64 =>
    obtain ⟨n, rfl⟩ := h
    have hlt : n.toNat < 256 ^ 8 := n.toNat_lt
    show Value.uint (UInt64.ofNat (n.toNat % 256 ^ 8)) = .uint n
    rw [Nat.mod_eq_of_lt hlt, UInt64.ofNat_toNat]
  | float64 =>
    obtain ⟨x, rfl⟩ := h
    have hlt : x.bits.toNat < 256 ^ 8 := x.bits.toNat_lt
    show Value.float ⟨UInt64.ofNat (x.bits.toNat % 256 ^ 8)⟩ = .float x
    rw [Nat.mod_eq_of_lt hlt, UInt64.ofNat_toNat]
  | float32 => exact h.elim
  | int8 =>
    obtain ⟨n, low, high, rfl, hrange, hlow, hhigh⟩ := h
    cases hrange
    exact signed_mod 8 (by decide) (by decide) hlow hhigh
  | int16 =>
    obtain ⟨n, low, high, rfl, hrange, hlow, hhigh⟩ := h
    cases hrange
    exact signed_mod 16 (by decide) (by decide) hlow hhigh
  | int32 =>
    obtain ⟨n, low, high, rfl, hrange, hlow, hhigh⟩ := h
    cases hrange
    exact signed_mod 32 (by decide) (by decide) hlow hhigh
  | int64 =>
    obtain ⟨n, low, high, rfl, hrange, hlow, hhigh⟩ := h
    cases hrange
    exact signed_mod 64 (by decide) (by decide) hlow hhigh
  | uint8 =>
    obtain ⟨n, low, high, rfl, hrange, hlow, hhigh⟩ := h
    cases hrange
    exact congrArg Value.int (ofNat_mod 8 hlow hhigh)
  | uint16 =>
    obtain ⟨n, low, high, rfl, hrange, hlow, hhigh⟩ := h
    cases hrange
    exact congrArg Value.int (ofNat_mod 16 hlow hhigh)
  | uint32 =>
    obtain ⟨n, low, high, rfl, hrange, hlow, hhigh⟩ := h
    cases hrange
    exact congrArg Value.int (ofNat_mod 32 hlow hhigh)

/-! ## Keys -/

/-- The primitives whose values can be told by their keys. -/
def hasKeys (p : Primitive) : Bool := p != .float32 && p != .float64

/-- A signed integer of so many bits is in their range. -/
theorem exists_signed (bits : Nat) (hbits : bits ≤ 64) (hpos : 0 < bits) (n : Nat) :
    ∃ m : Int64, signed bits n = .int m ∧ -2 ^ (bits - 1) ≤ m.toInt ∧ m.toInt < 2 ^ (bits - 1) := by
  have htwo : (2 : Nat) ^ bits = 2 * 2 ^ (bits - 1) := by
    rw [← Nat.pow_succ', Nat.succ_eq_add_one, Nat.sub_add_cancel hpos]
  have hmax : (2 : Nat) ^ (bits - 1) ≤ 2 ^ 63 := Nat.pow_le_pow_right (by decide) (by omega)
  have hlow : -2 ^ (bits - 1) ≤ Int.bmod n (2 ^ bits) := by
    have h := Int.le_bmod (x := (n : Int)) (m := 2 ^ bits) (by positivity)
    rw [htwo] at h ⊢
    push_cast at h ⊢
    omega
  have hhigh : Int.bmod n (2 ^ bits) < 2 ^ (bits - 1) := by
    have h := Int.bmod_lt (x := (n : Int)) (m := 2 ^ bits) (by positivity)
    rw [htwo] at h ⊢
    push_cast at h ⊢
    omega
  have hmax' : (2 : Int) ^ (bits - 1) ≤ 2 ^ 63 := by exact_mod_cast hmax
  refine ⟨_, rfl, ?_, ?_⟩ <;> rw [Int64.toInt_ofInt_of_le (by omega) (by omega)]
  · exact hlow
  · exact hhigh

/-- What a primitive reads, floating-point numbers apart, it stores without loss. -/
theorem holds_read {p : Primitive} (hp : p.hasKeys = true) (b : Bytes) : p.Holds (p.read b) := by
  have hlt : LittleEndian.decode (b.take p.width) < 256 ^ p.width := by
    refine lt_of_lt_of_le (LittleEndian.decode_lt _) (Nat.pow_le_pow_right (by decide) ?_)
    exact List.length_take_le _ _
  rw [read]
  generalize LittleEndian.decode (b.take p.width) = n at hlt
  -- a number without a sign is below the bound of its bits
  have hnat : n < 2 ^ 63 → 0 ≤ (Int64.ofNat n).toInt ∧ (Int64.ofNat n).toInt = n := by
    intro hn
    rw [Int64.toInt_ofNat_of_lt hn]
    omega
  cases p with
  | float32 => exact absurd hp (by decide)
  | float64 => exact absurd hp (by decide)
  | bool => exact ⟨_, rfl⟩
  | uint64 => exact ⟨_, rfl⟩
  | int8 =>
    obtain ⟨m, hm, hlow, hhigh⟩ := exists_signed 8 (by decide) (by decide) n
    exact ⟨m, _, _, hm, rfl, hlow, hhigh⟩
  | int16 =>
    obtain ⟨m, hm, hlow, hhigh⟩ := exists_signed 16 (by decide) (by decide) n
    exact ⟨m, _, _, hm, rfl, hlow, hhigh⟩
  | int32 =>
    obtain ⟨m, hm, hlow, hhigh⟩ := exists_signed 32 (by decide) (by decide) n
    exact ⟨m, _, _, hm, rfl, hlow, hhigh⟩
  | int64 =>
    obtain ⟨m, hm, hlow, hhigh⟩ := exists_signed 64 (by decide) (by decide) n
    exact ⟨m, _, _, hm, rfl, hlow, hhigh⟩
  | uint8 =>
    have hn : n < 2 ^ 8 := hlt
    obtain ⟨hlow, heq⟩ := hnat (by omega)
    exact ⟨_, _, _, rfl, rfl, hlow, by omega⟩
  | uint16 =>
    have hn : n < 2 ^ 16 := hlt
    obtain ⟨hlow, heq⟩ := hnat (by omega)
    exact ⟨_, _, _, rfl, rfl, hlow, by omega⟩
  | uint32 =>
    have hn : n < 2 ^ 32 := hlt
    obtain ⟨hlow, heq⟩ := hnat (by omega)
    exact ⟨_, _, _, rfl, rfl, hlow, by omega⟩

/-- The key of a value is stored as the value is. -/
theorem write_ofKey {p : Primitive} {v : Value} (hp : p.hasKeys = true) (h : p.Holds v) :
    p.write (.ofKey v.toKey) = p.write v := by
  cases p with
  | float32 => exact h.elim
  | float64 => exact absurd hp (by decide)
  | bool =>
    obtain ⟨b, rfl⟩ := h
    rw [Value.toKey, Value.ofKey_bool]
  | uint64 =>
    obtain ⟨n, rfl⟩ := h
    rw [Value.toKey, Value.ofKey_uint]
    split_ifs
    · rw [write, write]
      simp only [code, Value.toUInt64?, Option.getD_some, UInt64.toUInt64_toInt64]
    · rfl
  | _ =>
    obtain ⟨n, low, high, rfl, -⟩ := h
    rw [Value.toKey, Value.ofKey_int]

/-! ## Writing what was read -/

/-- The lowest bits that store an integer are those of the integer. -/
theorem toNat_ofInt_mod {bits : Nat} (hbits : bits ≤ 64) (i : Int) :
    (((Int64.ofInt i).toUInt64.toNat % 2 ^ bits : Nat) : Int) = i % 2 ^ bits := by
  have hdvd : (2 : Int) ^ bits ∣ 2 ^ 64 := pow_dvd_pow 2 hbits
  have hnat : ((Int64.ofInt i).toUInt64.toNat : Int) = i % 2 ^ 64 := by
    rw [← Int64.toNat_toBitVec, Int64.toBitVec_ofInt, BitVec.toNat_ofInt,
      Int.toNat_of_nonneg (Int.emod_nonneg _ (by decide))]
    rfl
  rw [Int.natCast_mod, hnat]
  push_cast
  exact Int.emod_emod_of_dvd i hdvd

/-- A number of so many bits is stored as it is, whether it stands for a signed integer or not. -/
theorem toNat_ofInt_mod_of_lt {bits n : Nat} (hbits : bits ≤ 64) (hn : n < 2 ^ bits) {i : Int}
    (hi : i % 2 ^ bits = n % 2 ^ bits) : (Int64.ofInt i).toUInt64.toNat % 2 ^ bits = n := by
  have h := toNat_ofInt_mod hbits i
  rw [hi, Int.emod_eq_of_lt (Int.natCast_nonneg n) (by exact_mod_cast hn)] at h
  exact_mod_cast h

theorem code_signed (bits : Nat) {n : Nat} (hbits : bits ≤ 64) (hn : n < 2 ^ bits) :
    ((signed bits n).toInt64?.getD 0).toUInt64.toNat % 2 ^ bits = n := by
  refine toNat_ofInt_mod_of_lt hbits hn ?_
  have h : Int.bmod n (2 ^ bits) % ((2 ^ bits : Nat) : Int) = n % ((2 ^ bits : Nat) : Int) :=
    Int.bmod_emod
  push_cast at h
  exact h

theorem code_ofNat (bits : Nat) {n : Nat} (hbits : bits ≤ 64) (hn : n < 2 ^ bits) :
    (Int64.ofNat n).toUInt64.toNat % 2 ^ bits = n :=
  toNat_ofInt_mod_of_lt hbits hn rfl

/-- What a number of the primitive's width stands for is stored as that number. -/
theorem code_meaning {p : Primitive} (hp : p.hasKeys = true) {n : Nat} (hn : n < 256 ^ p.width)
    (hbool : p = .bool → n < 2) : p.code (p.meaning n) % 256 ^ p.width = n := by
  cases p with
  | float32 => exact absurd hp (by decide)
  | float64 => exact absurd hp (by decide)
  | bool =>
    obtain rfl | rfl : n = 0 ∨ n = 1 := by
      have := hbool rfl
      omega
    · rfl
    · rfl
  | uint64 =>
    show (UInt64.ofNat n).toNat % 256 ^ 8 = n
    rw [UInt64.toNat_ofNat_of_lt' hn]
    exact Nat.mod_eq_of_lt hn
  | int8 => exact code_signed 8 (by decide) hn
  | int16 => exact code_signed 16 (by decide) hn
  | int32 => exact code_signed 32 (by decide) hn
  | int64 => exact code_signed 64 (by decide) hn
  | uint8 => exact code_ofNat 8 (by decide) hn
  | uint16 => exact code_ofNat 16 (by decide) hn
  | uint32 => exact code_ofNat 32 (by decide) hn

/-- **Bytes.**  What is read of bytes is stored as they are.  A truth value has only one byte for
each of the two. -/
theorem write_read {p : Primitive} (hp : p.hasKeys = true) {b : Bytes} (hb : b.length = p.width)
    (hbool : p = .bool → LittleEndian.decode b < 2) : p.write (p.read b) = b := by
  have hlt : LittleEndian.decode b < 256 ^ p.width := hb ▸ LittleEndian.decode_lt b
  rw [read, List.take_of_length_le (le_of_eq hb), write, ← LittleEndian.encode_mod,
    code_meaning hp hlt hbool, ← hb, LittleEndian.encode_decode]

/-- **Rewriting.**  A value that is read back and written again is stored as it was. -/
theorem write_read_write {p : Primitive} (hp : p.hasKeys = true) (v : Value) :
    p.write (p.read (p.write v)) = p.write v := by
  refine write_read hp (length_write p v) ?_
  rintro rfl
  have hcode : code .bool v < 2 := by
    rw [code]
    split_ifs <;> decide
  rw [write, LittleEndian.decode_encode (lt_trans hcode (by decide))]
  exact hcode

end Primitive

end BinarySchema
