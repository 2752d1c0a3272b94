/-
# Packed arrays are arrays

A packed array finds its items by shifts, clears its region at once and writes a hole as zeros, where
an array multiplies, clears the region and leaves the slot of a hole alone.  As long as the size of
the items is a 64-bit number the two are the same layout: `packed_refines_array` says that the packed
array of a primitive can stand for the array of that primitive in every operation on values, and on
all byte strings, also on those that are cut off inside an item.

A packed array whose size has wrapped around holds fewer items than it is declared to.  What it
encodes is the encoding of the one that is declared to hold so many (`toBytes_packed_slotCount`).
-/
import BinarySchema.Proofs.Edit
import BinarySchema.Proofs.SlotReading

namespace BinarySchema

namespace Layout

variable {p : Primitive} {capacity : Nat} {b : Bytes} {v : Value}

/-! ## Slots that are clear -/

/-- Two ways to write items to slots give the same bytes where the slots are clear, if they do so in
one such slot. -/
theorem onSlots_zeros_congr {f g : Value → Bytes → Bytes} {stride n : Nat} {items : List Value}
    (hfg : ∀ i, f i (zeros stride) = g i (zeros stride)) (hroom : items.length * stride ≤ n) :
    onSlots stride (items.map f) (zeros n) = onSlots stride (items.map g) (zeros n) := by
  induction items generalizing n with
  | nil => rfl
  | cons i rest ih =>
    rw [List.length_cons, Nat.succ_mul] at hroom
    have hslot : (zeros n).take stride = zeros stride := by
      rw [zeros, List.take_replicate, Nat.min_eq_left (by omega), zeros]
    rw [List.map_cons, List.map_cons, onSlots, onSlots, hslot, hfg, drop_zeros, ih (by omega)]

/-- A hole is stored as zeros, so it does not matter whether it is written to a slot that is clear. -/
theorem supplyItem_primitive (u : Unsupplied) (i : Value) :
    supplyItem u (.primitive p) i (zeros p.width) = p.write i := by
  rw [supplyItem]
  split_ifs with hnull
  · cases i <;> try cases hnull
    cases p <;> rfl
  · rw [write_primitive_slot u i (length_zeros _)]

/-- Seeding the slots of primitives one by one clears all of them. -/
theorem onSlots_seed_primitive (count : Nat) (hroom : count * p.width ≤ b.length) :
    onSlots p.width (List.replicate count fun slot => seed (.primitive p) slot) b
      = zeros (count * p.width) ++ b.drop (count * p.width) := by
  induction count generalizing b with
  | zero =>
    rw [List.replicate_zero, onSlots, Nat.zero_mul]
    rfl
  | succ count ih =>
    rw [Nat.succ_mul] at hroom ⊢
    have hslot : (b.take p.width).length = p.width := by
      rw [List.length_take]
      omega
    have hseed : seed (.primitive p) (b.take p.width) = zeros p.width := by
      rw [seed_eq_onFront rfl (by simp), fixedLength?, Option.getD_some, onFront,
        List.drop_of_length_le (le_of_eq hslot), List.append_nil, List.length_take, hslot,
        Nat.min_self]
    rw [List.replicate_succ, onSlots, hseed, ih (by rw [List.length_drop]; omega),
      Nat.add_comm (count * p.width), zeros_add, List.append_assoc, List.drop_drop]

/-! ## Sizes that wrap around -/

/-- The items of a packed array are written one behind the other. -/
theorem toBytes_packed (p : Primitive) (capacity : Nat) (v : Value) :
    toBytes (.packed p capacity) v
      = onSlots p.width ((v.items.take (slotCount p.width capacity
          (zeros (packedLength p capacity)))).map fun i _ => p.write i)
        (zeros (packedLength p capacity)) := by
  rw [WellFormed.toBytes_of_fixedLength (.packed p capacity) rfl, encodeOver,
    seed_content rfl (by simp), amend, write_packed .kept v (length_zeros _).symm, length_zeros]

/-- A packed array is encoded, and searched, as one with so many items as there are slots. -/
theorem toBytes_packed_slotCount (v : Value) {count : Nat}
    (hcount : slotCount p.width capacity (toBytes (.packed p capacity) v) = count) :
    count * p.width < UInt64.size
      ∧ toBytes (.packed p capacity) v = toBytes (.packed p count) v
      ∧ ∀ x start, indexOf? (.packed p capacity) (toBytes (.packed p capacity) v) x start
        = indexOf? (.packed p count) (toBytes (.packed p capacity) v) x start := by
  have hlength : (toBytes (.packed p capacity) v).length = packedLength p capacity := by
    rw [WellFormed.toBytes_of_fixedLength (.packed p capacity) rfl,
      ((WellFormed.packed p capacity).keepsLength.encodeOver v _).1, length_zeros]
  obtain ⟨-, hsize⟩ := slotCount_packed hlength.symm
  rw [hcount] at hsize
  have hsmall : count * p.width < UInt64.size := by
    rw [hsize]
    exact Nat.mod_lt _ (by decide)
  have hpacked : packedLength p count = packedLength p capacity :=
    (packedLength_eq hsmall).trans hsize
  have hslots : slotCount p.width capacity (zeros (packedLength p capacity)) = count := by
    rw [← hcount]
    exact slotCount_congr (by rw [length_zeros, hlength])
  refine ⟨hsmall, ?_, fun x start => ?_⟩
  · rw [toBytes_packed, toBytes_packed, hpacked, hslots,
      slotCount_eq_capacity (by rw [length_zeros, hsize])]
  · rw [indexOf?, indexOf?, hcount, slotCount_eq_capacity (by rw [hlength, hsize])]

/-! ## The two layouts -/

/-- Where there are zeros already, all items are written alike. -/
theorem onSlots_packed (u : Unsupplied) (v : Value) (r : Bytes) :
    onSlots p.width ((v.items.take (slotCount p.width capacity r)).map fun i _ => p.write i)
        (zeros r.length)
      = onSlots p.width ((v.items.take (slotCount p.width capacity r)).map
          (supplyItem u (.primitive p))) (zeros r.length) := by
  apply onSlots_zeros_congr
  · intro i
    rw [supplyItem_primitive]
  · refine le_trans (Nat.mul_le_mul_right _ (List.length_take_le _ _)) ?_
    exact slotCount_mul_le _ _ _

section

variable (hsmall : capacity * p.width < UInt64.size)

include hsmall

/-- No offset of an item that is there wraps around. -/
theorem packedOffset_slot {i : Nat} (hi : i < slotCount p.width capacity b) :
    packedOffset p i = itemOffset p.width i := by
  have hle : i ≤ capacity := le_of_lt (lt_of_lt_of_le hi (slotCount_le _ _ _))
  exact packedOffset_eq (lt_of_le_of_lt (Nat.mul_le_mul_right _ hle) hsmall)

theorem packedSpan?_eq (b : Bytes) (i : Nat) :
    packedSpan? p capacity b i = slotSpan? p.width capacity b i := by
  rw [packedSpan?, slotSpan?]
  split_ifs with hi
  · rw [packedOffset_slot hsmall hi]
  · rfl

theorem decode_packed_eq (b : Bytes) :
    decode (.packed p capacity) b = decode (.array (.primitive p) p.width capacity) b := by
  rw [decode_packed, decode_array]
  congr 1
  apply List.map_congr_left
  intro i hi
  rw [packedOffset_slot hsmall (List.mem_range.mp hi), decode, ← Primitive.read_take]
  rfl

theorem indexOf?_packed (b : Bytes) (v : Value) (start : Nat) :
    indexOf? (.packed p capacity) b v start
      = indexOf? (.array (.primitive p) p.width capacity) b v start := by
  rw [indexOf?, indexOf?]
  apply Window.firstFrom_congr
  intro i hstart hi
  rw [packedOffset_slot hsmall (b := b) (by omega)]

/-- Encoding clears the region of either. -/
theorem encode_packed (v : Value) (b : Bytes) :
    encode (.packed p capacity) v b = encode (.array (.primitive p) p.width capacity) v b := by
  rw [encode, encode, write, write, packedLength_eq hsmall]
  rw [onFront, onFront, onSlots_packed .cleared]
  rfl

/-- So does encoding over the defaults, of which there are none, where the whole region is there. -/
theorem encodeOver_packed (v : Value) (hroom : capacity * p.width ≤ b.length) :
    encodeOver (.packed p capacity) v b
      = encodeOver (.array (.primitive p) p.width capacity) v b := by
  have hseed : seed (.array (.primitive p) p.width capacity) b
      = zeros (capacity * p.width) ++ b.drop (capacity * p.width) := by
    rw [seed, slotCount_eq_capacity hroom, onSlots_seed_primitive capacity hroom]
  have hseed' : seed (.packed p capacity) b
      = zeros (capacity * p.width) ++ b.drop (capacity * p.width) := by
    rw [seed_eq_onFront rfl (by simp), fixedLength?, packedLength_eq hsmall, Option.getD_some,
      onFront, List.length_take, Nat.min_eq_left hroom]
  rw [encodeOver, encodeOver, hseed, hseed', amend, amend, write, write, packedLength_eq hsmall]
  generalize b.drop (capacity * p.width) = rest
  have hregion : min (capacity * p.width) (zeros (capacity * p.width) ++ rest).length
      = (zeros (capacity * p.width)).length := by
    rw [List.length_append, length_zeros]
    omega
  rw [hregion, onFront, onFront, List.take_left, onSlots_packed .kept, length_zeros]
  rfl

end

/-- **Packed arrays.**  A packed array whose items are shorter, all together, than the bound on 64-bit
numbers is the array of the same primitive.  The two have the same sizes and, of any byte string,
the same items at the same places; they read alike, find the same items and encode any value to the
same bytes.  Over the defaults they do so where the whole region is there. -/
theorem packed_refines_array (p : Primitive) (capacity : Nat)
    (hsmall : capacity * p.width < UInt64.size) :
    let packed : Layout := .packed p capacity
    let array : Layout := .array (.primitive p) p.width capacity
    packed.fixedLength? = array.fixedLength?
    ∧ (∀ v, encodedLength packed v = encodedLength array v)
    ∧ (∀ b, itemCount packed b = itemCount array b)
    ∧ (∀ i, i * p.width < UInt64.size → packedOffset p i = itemOffset p.width i)
    ∧ (∀ b i, itemSpan? packed b i = itemSpan? array b i)
    ∧ (∀ b, decode packed b = decode array b)
    ∧ (∀ b v start, indexOf? packed b v start = indexOf? array b v start)
    ∧ (∀ v b, encode packed v b = encode array v b)
    ∧ (∀ v b n, array.fixedLength? = some n → n ≤ b.length →
      encodeOver packed v b = encodeOver array v b) := by
  intro packed array
  refine ⟨congrArg some (packedLength_eq hsmall), fun v => ?_, fun b => rfl,
    fun i hi => packedOffset_eq hi, fun b i => ?_, decode_packed_eq hsmall, indexOf?_packed hsmall,
    encode_packed hsmall, fun v b n hn hroom => ?_⟩
  · rw [encodedLength, encodedLength, packedLength_eq hsmall]
  · rw [itemSpan?, itemSpan?, packedSpan?_eq hsmall]
  · exact encodeOver_packed hsmall v ((le_of_eq (Option.some.inj hn)).trans hroom)

/-- Seven bytes hold three of four numbers of 16 bits and a half.  Of four items that are to be
written, a hole and a text among them, the last one is left out. -/
theorem packed_refines_array_half :
    let packed : Layout := .packed .uint16 4
    let array : Layout := .array (.primitive .uint16) 2 4
    let b : Bytes := [1, 0, 2, 0, 3, 0, 4]
    let v : Value := .list [.int 1, .null, .text "2", .int 3]
    4 * Primitive.width .uint16 < UInt64.size ∧ decode packed b = decode array b
      ∧ (encode packed v b).bytes = (encode array v b).bytes
      ∧ (encode packed v b).bytes = [1, 0, 0, 0, 0, 0, 0]
      ∧ indexOf? packed b (.int 3) 1 = indexOf? array b (.int 3) 1
      ∧ indexOf? packed b (.int 3) 1 = some 2 := by
  intro packed array b v
  obtain ⟨-, -, -, -, -, hdecode, hindex, hencode, -⟩ :=
    packed_refines_array .uint16 4 (by decide)
  refine ⟨by decide, hdecode b, congrArg Written.bytes (hencode v b), by decide +kernel,
    hindex b (.int 3) 1, by decide +kernel⟩

end Layout

end BinarySchema
