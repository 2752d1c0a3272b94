/-
# What images decode to

An image decodes to the values of its chunks, whatever follows it: `decode_vectorImage`,
`decode_dictImage` and `fieldValue?_mapImage_optional`.  So do the slots of a run of slots
(`decode_array_onSlots`).
-/
import BinarySchema.Proofs.Decode
import BinarySchema.Proofs.Image

namespace BinarySchema

namespace Layout

variable {chunks keys : List Bytes} {fixed rest b : Bytes} {f : Field Layout}
  {fields : List (Field Layout)}

/-- What a chunk decodes to, a hole to null. -/
def chunkValue (item : Layout) (chunk : Bytes) : Value :=
  if chunk.length = 0 then .null else decode item chunk

/-! ## Vectors and dicts -/

theorem vectorItem_vectorImage (item : Layout) (rest : Bytes) (hsmall : (vectorImage chunks).length < 2 ^ 32)
    {i : Nat} (hi : i < chunks.length) :
    vectorItem item (vectorImage chunks ++ rest) i = chunkValue item chunks[i] := by
  rw [vectorItem, vectorSpan?_vectorImage hsmall hi, chunkValue]
  split_ifs with hempty
  · rfl
  · rw [Option.map_some, Option.getD_some, slice_vectorImage hi]

/-- **Vectors.**  The image of a vector decodes to the values of its chunks. -/
theorem decode_vectorImage (item : Layout) (limit : Option Nat)
    (hsmall : (vectorImage chunks).length < 2 ^ 32) :
    decode (.vector item limit) (vectorImage chunks ++ rest)
      = .list (chunks.map (chunkValue item)) := by
  rw [decode_vector, storedCount_vectorImage hsmall]
  congr 1
  apply List.ext_getElem
  · rw [List.length_map, List.length_map, List.length_range]
  · intro i hi hi'
    rw [List.length_map] at hi'
    rw [List.getElem_map, List.getElem_map, List.getElem_range,
      vectorItem_vectorImage item rest hsmall hi']

/-- **Dicts.**  The image of a dict decodes to the entries that its keys and chunks make up, of
several with one name the first. -/
theorem decode_dictImage (key value : Layout) {keyLength : Nat}
    (hsmall : (dictImage chunks keys).length < 2 ^ 32) (hcount : keys.length = chunks.length)
    (hkeys : ∀ k ∈ keys, k.length = keyLength) :
    decode (.dict key keyLength value) (dictImage chunks keys ++ rest)
      = .record (Value.setNew ((keys.map fun k => keyText key (decode key k)).zip
          (chunks.map (chunkValue value))) []) := by
  have hvector := vectorImage_lt_of_dictImage hsmall
  rw [decode, keyCount_dictImage hsmall hcount hkeys, Value.setNew]
  congr 2
  apply List.ext_getElem
  · rw [List.length_map, List.length_range, List.length_zip, List.length_map, List.length_map,
      hcount, Nat.min_self]
  · intro i hi hi'
    rw [List.length_map, List.length_range] at hi
    have hitem := vectorItem_vectorImage value (Word.toBytes (Word.ofLength
      ((vectorImage chunks).length + Word.width)) ++ keys.flatten ++ rest) hvector hi
    rw [← dictImage_append, vectorItem] at hitem
    rw [List.getElem_map, List.getElem_range, List.getElem_zip, List.getElem_map, List.getElem_map,
      slice_keySpan hsmall hkeys (by omega), ← hitem]
    cases vectorSpan? (dictImage chunks keys ++ rest) i <;> rfl

/-! ## Records -/

theorem fixedValue?_of_fits {span : Span} (hf : f.place = .fixed span) (h : span.Fits b) :
    fixedValue? b f = some (decode f.layout (span.slice b)) := by
  rw [fixedValue?, Field.span?, hf]
  simp only [Option.map_some, Span.slice?_of_fits h, Option.getD_some]

/-- A field at a fixed place reads as the bytes there. -/
theorem fieldValue?_map_fixed {span : Span} (hplace : f.place = .fixed span) (hfits : span.Fits b) :
    fieldValue? (.map fields) b f = some (decode f.layout (span.slice b)) := by
  have hoptional : optionalValue? (fixedRegion fields) (dataStart fields) b f = none := by
    rw [optionalValue?, Field.ordinal?, hplace]
    rfl
  rw [fieldValue?, hoptional, Option.none_or, fixedValue?_of_fits hplace hfits]

theorem fieldValue?_mapImage_fixed (hregion : fixed.length = fixedRegion fields) (hf : f ∈ fields)
    {span : Span} (hplace : f.place = .fixed span) :
    fieldValue? (.map fields) (mapImage fixed chunks ++ rest) f
      = some (decode f.layout (span.slice fixed)) := by
  have hstop := stop_le_fixedRegion hf hplace
  have hfits : span.Fits fixed := by
    rw [Span.Fits, hregion]
    exact hstop
  have hsplit : mapImage fixed chunks ++ rest = fixed
      ++ (words (ends (optionalStart fixed.length chunks.length) chunks
        ++ [optionalStart fixed.length chunks.length + chunks.flatten.length])
        ++ chunks.flatten ++ rest) := by
    unfold mapImage
    simp only [List.append_assoc]
  have hfits' : span.Fits (mapImage fixed chunks ++ rest) := by
    rw [hsplit, Span.Fits, List.length_append]
    exact le_trans hfits (Nat.le_add_right _ _)
  rw [fieldValue?_map_fixed hplace hfits', hsplit, Span.slice_append hfits]

/-- **Maps.**  An optional field of the image of a map decodes to the value of its chunk, unless
that is a hole. -/
theorem fieldValue?_mapImage_optional (hregion : fixed.length = fixedRegion fields)
    (hcount : chunks.length = optionalCount fields)
    (hsmall : (mapImage fixed chunks).length < 2 ^ 32) {k : Nat} (hplace : f.place = .optional k)
    (hk : k < chunks.length) :
    fieldValue? (.map fields) (mapImage fixed chunks ++ rest) f
      = if chunks[k].length = 0 then none else some (decode f.layout chunks[k]) := by
  have hspan := optionalSpan?_mapImage rest hsmall hk
  have hfixed : fixedValue? (mapImage fixed chunks ++ rest) f = none := by
    rw [fixedValue?, Field.span?, hplace]
    rfl
  have hoptional : ∀ table data b, optionalValue? table data b f
      = (optionalSpan? table data b k).map fun span => decode f.layout (span.slice b) := by
    intro table data b
    rw [optionalValue?, Field.ordinal?, hplace]
    rfl
  rw [hregion, hcount, ← dataStart_eq] at hspan
  rw [fieldValue?, hfixed, Option.or_none, hoptional, hspan]
  split_ifs with hempty
  · rfl
  · have hslice := slice_mapImage fixed rest hk
    rw [hregion, hcount, ← dataStart_eq] at hslice
    rw [Option.map_some, hslice]

/-! ## Runs of slots -/

/-- The slots of a run that has been rewritten decode one by one. -/
theorem decode_array_onSlots (item : Layout) {stride capacity : Nat} {fs : List (Bytes → Bytes)}
    (hf : ∀ g ∈ fs, ∀ x : Bytes, x.length = stride → (g x).length = stride)
    (hb : b.length = fs.length * stride) (hcapacity : capacity = fs.length)
    {values : List Value} (hvalues : values.length = fs.length)
    (hdecode : ∀ i (hi : i < fs.length) (hi' : i < values.length), ∀ slot : Bytes,
      slot.length = stride → decode item (fs[i] slot) = values[i]) :
    decode (.array item stride capacity) (onSlots stride fs b) = .list values := by
  have hlength : (onSlots stride fs b).length = fs.length * stride := by
    rw [length_onSlots_of_le hf (by omega), hb]
  have hslots : slotCount stride capacity (onSlots stride fs b) = fs.length := by
    rw [slotCount, hlength, hcapacity]
    split_ifs with hzero
    · rfl
    · rw [Nat.mul_div_cancel _ (Nat.pos_of_ne_zero hzero), Nat.min_self]
  rw [decode_array, hslots]
  congr 1
  apply List.ext_getElem
  · rw [List.length_map, List.length_range, hvalues]
  · intro i hi hi'
    rw [List.length_map, List.length_range] at hi
    have hslot : (Span.slice ⟨i * stride, stride⟩ b).length = stride := by
      apply Span.length_slice_of_fits
      have hle : (i + 1) * stride ≤ fs.length * stride := Nat.mul_le_mul_right _ hi
      rw [Nat.succ_mul] at hle
      simp only [Span.Fits, Span.stop]
      omega
    rw [List.getElem_map, List.getElem_range, slice_onSlots hf (by omega) hi]
    exact hdecode i hi hi' _ hslot

end Layout

end BinarySchema
