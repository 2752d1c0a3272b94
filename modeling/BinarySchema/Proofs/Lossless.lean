/-
# Bytes that are read and written back

A layout whose leaves are integers and blobs stores every byte: what any byte string of its size
decodes to is encoded to the same bytes again (`toBytes_decode`).  So there is exactly one value that
each such byte string is the encoding of, among those that are decoded of any.

The defaults of the layout do not show, since what has been decoded supplies every leaf.  Texts and
truth values are left out, since several byte strings read as the same one, and so are floating-point
numbers, which are converted where they have 32 bits.
-/
import BinarySchema.Proofs.Leaves
import BinarySchema.Proofs.Packed
import BinarySchema.Proofs.Settled

namespace BinarySchema

/-- Whether the primitive holds integers. -/
def Primitive.isInteger (p : Primitive) : Bool :=
  match p with
  | .int8 | .uint8 | .int16 | .uint16 | .int32 | .uint32 | .int64 | .uint64 => true
  | .bool | .float32 | .float64 => false

theorem Primitive.hasKeys_of_isInteger {p : Primitive} (hp : p.isInteger = true) :
    p.hasKeys = true := by
  revert hp
  cases p <;> decide

/-- An integer is stored as the bytes that it is read of. -/
theorem Primitive.write_read_integer {p : Primitive} (hp : p.isInteger = true) {b : Bytes}
    (hb : b.length = p.width) : p.write (p.read b) = b := by
  refine write_read (hasKeys_of_isInteger hp) hb ?_
  rintro rfl
  exact absurd hp (by decide)

namespace Layout

variable {layout leaf : Layout} {b : Bytes} {p : Primitive} {capacity : Nat}

/-- All leaves of the layout are integers, runs of them, and blobs. -/
inductive IsLossless : Layout → Prop
  | primitive {p : Primitive} (hp : p.isInteger = true) : IsLossless (.primitive p)
  | blob (cap : Option Nat) : IsLossless (.blob cap)
  | packed {p : Primitive} (capacity : Nat) (hp : p.isInteger = true) :
      IsLossless (.packed p capacity)
  | array {item : Layout} (stride capacity : Nat) (hitem : IsLossless item) :
      IsLossless (.array item stride capacity)
  | object {fields : List (Field Layout)} (hparts : ∀ f ∈ fields, IsLossless f.layout) :
      IsLossless (.object fields)

/-- A path leads from a lossless layout to a lossless one. -/
theorem IsLossless.placed? {path : List Hop} {span : Span} (h : layout.IsLossless)
    (hpath : layout.placed? path = some (leaf, span)) : leaf.IsLossless := by
  induction path generalizing layout leaf span with
  | nil =>
    obtain ⟨n, -, heq⟩ := Option.map_eq_some_iff.mp hpath
    cases heq
    exact h
  | cons hop path ih =>
    obtain ⟨⟨part, outer⟩, hpart, hrest⟩ := Option.bind_eq_some_iff.mp hpath
    obtain ⟨⟨leaf', inner⟩, hinner, heq⟩ := Option.map_eq_some_iff.mp hrest
    cases heq
    cases h with
    | object hparts =>
      obtain ⟨f, hf, -, rfl, -⟩ := placedPart?_object hpart
      exact ih (hparts f hf) hinner
    | array stride capacity hitem =>
      obtain ⟨i, -, -, rfl, -⟩ := placedPart?_array hpart
      exact ih hitem hinner
    | _ => cases hop <;> cases hpart

/-! ## Leaves -/

theorem toBytes_primitive (p : Primitive) (v : Value) : toBytes (.primitive p) v = p.write v := by
  rw [WellFormed.toBytes_of_fixedLength (.primitive p) rfl, encodeOver, seed_content rfl (by simp),
    amend, write_primitive_slot _ _ (length_zeros _)]

/-- The items of a packed array make up its bytes, also where its size has wrapped around. -/
theorem toBytes_decode_packed (hp : p.isInteger = true) (hb : packedLength p capacity = b.length) :
    toBytes (.packed p capacity) (decode (.packed p capacity) b) = b := by
  obtain ⟨-, hsize⟩ := slotCount_packed hb
  have hcount : slotCount p.width capacity (zeros (packedLength p capacity))
      = slotCount p.width capacity b := slotCount_congr (by rw [length_zeros, hb])
  rw [toBytes_packed, hcount, decode_packed, hb]
  rw [hb] at hsize
  generalize hitems : ((List.range (slotCount p.width capacity b)).map fun i =>
    p.read (b.drop (packedOffset p i))) = items
  have hlength : items.length = slotCount p.width capacity b := by
    rw [← hitems, List.length_map, List.length_range]
  have hroom : items.length * p.width ≤ (zeros b.length).length := by
    rw [hlength, hsize, length_zeros]
  have htake : (Value.items (.list items)).take (slotCount p.width capacity b) = items :=
    List.take_of_length_le (le_of_eq hlength)
  rw [htake]
  have hwritten : (onSlots p.width (items.map fun i _ => p.write i) (zeros b.length)).length
      = slotCount p.width capacity b * p.width := by
    rw [length_onSlots_write hroom, length_zeros, hsize]
  refine ext_slots hwritten hsize.symm fun i hi => ?_
  have hi' : i < items.length := by omega
  have hbound : i * p.width < UInt64.size := by
    refine lt_of_le_of_lt (Nat.mul_le_mul_right _ (le_of_lt hi)) ?_
    rw [hsize, ← hb]
    exact Nat.mod_lt _ (by decide)
  have hread : items[i] = p.read (Span.slice ⟨i * p.width, p.width⟩ b) := by
    simp only [← hitems, List.getElem_map, List.getElem_range]
    rw [packedOffset_eq hbound, ← Primitive.read_take]
    rfl
  rw [slice_onSlots_write hroom hi', hread]
  exact Primitive.write_read_integer hp (Span.length_slice_of_fits (fits_slot hi))

theorem toBytes_decode_blob {cap : Option Nat} (hb : cap = some b.length) :
    toBytes (.blob cap) (decode (.blob cap) b) = b := by
  have hcontent : contentBytes cap b = b := by
    rw [contentBytes, hb, Option.getD_some, List.take_length]
  rw [decode, hcontent, WellFormed.toBytes_of_fixedLength (.blob cap) hb, encodeOver,
    seed_content rfl (by simp), amend, write, writeContent_eq (by rw [length_zeros, hb]; rfl)]
  dsimp only
  rw [length_zeros]
  exact fitted_length b

/-- **Leaves.**  What is read of the bytes of a leaf is stored as they are. -/
theorem IsLossless.toBytes_decode_leaf (h : leaf.IsLossless) (hleaf : leaf.IsLeaf)
    (hb : leaf.fixedLength? = some b.length) : toBytes leaf (decode leaf b) = b := by
  cases h with
  | primitive hp =>
    rw [toBytes_primitive, decode]
    exact Primitive.write_read_integer hp (Option.some.inj hb).symm
  | packed capacity hp => exact toBytes_decode_packed hp (Option.some.inj hb)
  | blob cap => exact toBytes_decode_blob hb
  | array | object => exact hleaf.elim

/-! ## All layouts -/

theorem WellFormed.toBytes_decode (hwf : layout.WellFormed) (hlossless : layout.IsLossless)
    (hb : layout.fixedLength? = some b.length) : toBytes layout (decode layout b) = b := by
  have hlength := hwf.length_toBytes_eq hb (decode layout b)
  refine hwf.toldByLeaves _ _ (by rw [hlength]; exact hb) hlength.symm ?_
  intro path leaf span hpath hleaf
  have hseed : (seed layout (zeros b.length)).length = b.length := by
    rw [hwf.keepsLength.2, length_zeros]
  obtain ⟨-, hleafLength, hinside⟩ := hwf.placed? hb hpath
  rw [← Span.length_slice_of_fits hinside] at hleafLength
  rw [hwf.toBytes_eq_supply hb (decode_ne_null _ _),
    hwf.slice_supply_leaf (by rw [hseed]; exact hb) hpath hleaf, Option.bind_some,
    hwf.follow?_decode hb hpath, Value.nonNull_some (decode_ne_null _ _)]
  exact (hlossless.placed? hpath).toBytes_decode_leaf hleaf hleafLength

/-- **Lossless layouts.**  What bytes of the size of a layout decode to, where all leaves are integers
and blobs, is encoded to these bytes again, and it is the only value that is decoded of any bytes of
that size and encoded to these. -/
theorem decode_lossless (hlayout : layout.IsCompiled) (hlossless : layout.IsLossless)
    (hb : layout.fixedLength? = some b.length) :
    toBytes layout (decode layout b) = b
    ∧ ∃! v, (∃ c : Bytes, c.length = b.length ∧ decode layout c = v) ∧ toBytes layout v = b := by
  have hback : ∀ c : Bytes, c.length = b.length → toBytes layout (decode layout c) = c :=
    fun c hc => hlayout.wellFormed.toBytes_decode hlossless (by rw [hc]; exact hb)
  refine ⟨hback b rfl, decode layout b, ⟨⟨b, rfl, rfl⟩, hback b rfl⟩, ?_⟩
  rintro v ⟨⟨c, hc, rfl⟩, hbytes⟩
  rw [hback c hc] at hbytes
  rw [hbytes]

/-- A ship with a default, a crew of two and two marks: none of its twelve bytes is lost. -/
theorem decode_lossless_ship :
    let member : Layout := .object [⟨"key", .blob (some 2), .fixed ⟨0, 2⟩, none, some 2⟩,
      ⟨"age", .primitive .int8, .fixed ⟨2, 1⟩, none, none⟩]
    let layout : Layout := .object [⟨"id", .primitive .uint16, .fixed ⟨0, 2⟩, some (.int 7), none⟩,
      ⟨"crew", .array member 3 2, .fixed ⟨2, 6⟩, none, none⟩,
      ⟨"marks", .packed .uint16 2, .fixed ⟨8, 4⟩, none, none⟩]
    let b : Bytes := [0, 0, 0, 255, 128, 65, 0, 0, 1, 2, 3, 4]
    layout.IsCompiled ∧ layout.IsLossless ∧ layout.fixedLength? = some b.length
      ∧ toBytes layout (decode layout b) = b := by
  intro member layout b
  have hcompiled : layout.IsCompiled := .of_eval ⟨0⟩ (.object
    [("type", .text "object"), ("properties", .object
      [("id", .object [("type", .text "integer"), ("btype", .text "uint16"),
        ("default", .number (.natural 7))]),
      ("crew", .object [("type", .text "array"), ("maxItems", .number (.natural 2)),
        ("items", .object [("type", .text "object"), ("properties", .object
          [("key", .object [("type", .text "string"), ("btype", .text "binary"),
            ("maxLength", .number (.natural 2))]),
          ("age", .object [("type", .text "integer"), ("btype", .text "int8")])])])]),
      ("marks", .object [("type", .text "array"), ("maxItems", .number (.natural 2)),
        ("items", .object [("type", .text "integer"), ("btype", .text "uint16")])])])]) (by cbv)
  have hmember : member.IsLossless := by
    refine .object (List.forall_mem_cons.mpr ⟨.blob _, ?_⟩)
    exact List.forall_mem_singleton.mpr (.primitive rfl)
  have hlossless : layout.IsLossless := by
    refine .object (List.forall_mem_cons.mpr ⟨.primitive rfl, ?_⟩)
    refine List.forall_mem_cons.mpr ⟨.array 3 2 hmember, ?_⟩
    exact List.forall_mem_singleton.mpr (.packed 2 rfl)
  exact ⟨hcompiled, hlossless, rfl, (decode_lossless hcompiled hlossless rfl).1⟩

end Layout

end BinarySchema
