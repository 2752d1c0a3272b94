/-
# Values that delimit themselves

The bytes of a vector, a dict or a map say where they end.  With any bytes behind them they have
the same used length, and everything that can be asked of them has the same answer
(`toBytes_delimited`): the value, the number of items, and the place of each item, entry and field.

What is written is an image with nothing behind it (`WellFormed.isImage_toBytes`), and an image is
read alike whatever follows (`IsImage.readsAlike_append`).
-/
import BinarySchema.Proofs.Edit

namespace BinarySchema

namespace Layout

variable {layout : Layout} {b c : Bytes} {chunks keys : List Bytes}

/-- All that is asked of a value has the same answer in two byte strings. -/
structure ReadsAlike (layout : Layout) (b c : Bytes) : Prop where
  /-- The value is the same. -/
  value : decode layout c = decode layout b
  /-- The number of items or entries is the same. -/
  count : itemCount layout c = itemCount layout b
  /-- Each item has the same place. -/
  item : ∀ i, itemSpan? layout c i = itemSpan? layout b i
  /-- Each key leads to the same place. -/
  entry : ∀ key, entrySpan? layout c key = entrySpan? layout b key
  /-- Each field has the same place. -/
  field : ∀ i, fieldSpan? layout c i = fieldSpan? layout b i

/-- The byte string is the image of a vector, a dict or a map, with nothing behind it. -/
def IsImage : Layout → Bytes → Prop
  | .vector _ _, b => ∃ chunks, b = vectorImage chunks
  | .dict _ keyLength _, b => ∃ chunks keys, keys.length = chunks.length
      ∧ (∀ key ∈ keys, key.length = keyLength) ∧ b = dictImage chunks keys
  | .map fields, b => ∃ fixed chunks, fixed.length = fixedRegion fields
      ∧ chunks.length = optionalCount fields ∧ b = mapImage fixed chunks
  | _, _ => False

/-! ## What is written -/

/-- What is written of a vector, a dict or a map is an image, where there is room for the least of
it. -/
theorem WellFormed.isImage_write (hwf : layout.WellFormed) (htable : layout.IsTable)
    (hroom : leastLength layout ≤ b.length) (u : Unsupplied) (v : Value) :
    IsImage layout (write u layout v b).value := by
  cases hwf with
  | vector limit hitem =>
    unfold leastLength at hroom
    rw [write_vector, writeVector_eq _ hroom rfl
      (allKeep_itemParts hitem.keepsLength.encodeOver _ _) rfl, Written.value_append]
    exact ⟨_, rfl⟩
  | @dict key value keyLength hkey hlength hvalue =>
    unfold leastLength at hroom
    have hput := length_putKey hkey.keepsLength keyLength
    rw [write_dict, writeDict_eq _ hvalue.keepsLength.encodeOver hput hroom rfl,
      Written.value_append]
    refine ⟨_, _, ?_, length_of_mem_placeKeys _ _ hput ?_, rfl⟩
    · rw [length_placeKeys]
      exact length_placeValues_fst.symm
    · rw [List.length_take, Nat.min_eq_left (dictCount_le _ _ _)]
      exact dictOverhead_dictCount_le _ hroom
  | map hparts harranged hnames =>
    rw [leastLength] at hroom
    have hkeep := fun f hf => (hparts f hf).keepsLength
    rw [write_map harranged hkeep hroom rfl, Written.value_append]
    refine ⟨_, _, length_fixedBytes hkeep (le_trans (fixedRegion_le_dataStart _) hroom), ?_, rfl⟩
    exact length_place_optionalParts _ _ _
  | _ => exact htable.elim

theorem WellFormed.isImage_toBytes (hwf : layout.WellFormed) (htable : layout.IsTable) (v : Value) :
    IsImage layout (toBytes layout v) := by
  apply hwf.isImage_write htable
  rw [hwf.keepsLength.2, length_zeros]
  exact leastLength_le_freshLength layout v

/-! ## What is read -/

/-- An image takes all of its bytes, whatever follows. -/
theorem IsImage.usedLength_append (h : IsImage layout b) (hsmall : b.length < 2 ^ 32) (c : Bytes) :
    usedLength layout (b ++ c) = b.length := by
  cases layout with
  | vector item limit =>
    obtain ⟨chunks, rfl⟩ := h
    exact usedLength_vectorImage item limit hsmall
  | dict key keyLength value =>
    obtain ⟨chunks, keys, hcount, hkeys, rfl⟩ := h
    exact usedLength_dictImage key value hsmall hcount hkeys
  | map fields =>
    obtain ⟨fixed, chunks, hfixed, hcount, rfl⟩ := h
    exact usedLength_mapImage hfixed hcount hsmall
  | _ => exact h.elim

/-- The chunks of a vector are where they are, whatever follows. -/
theorem vectorSpan?_vectorImage_append (hsmall : (vectorImage chunks).length < 2 ^ 32) (c : Bytes)
    (i : Nat) : vectorSpan? (vectorImage chunks ++ c) i = vectorSpan? (vectorImage chunks) i := by
  have hsame : vectorSpan? (vectorImage chunks ++ c) i = vectorSpan? (vectorImage chunks ++ []) i :=
    vectorSpan?_congr hsmall rfl i
  rwa [List.append_nil] at hsame

theorem storedCount_vectorImage_append (hsmall : (vectorImage chunks).length < 2 ^ 32) (c : Bytes) :
    storedCount (vectorImage chunks ++ c) = storedCount (vectorImage chunks) := by
  have halone : storedCount (vectorImage chunks ++ []) = chunks.length :=
    storedCount_vectorImage hsmall
  rw [List.append_nil] at halone
  rw [storedCount_vectorImage hsmall, halone]

/-- An optional field of a map is where it is, whatever follows. -/
theorem mapSpan?_mapImage_append {fields : List (Field Layout)} {fixed : Bytes}
    (harranged : Arranged 0 0 fields) (hfixed : fixed.length = fixedRegion fields)
    (hcount : chunks.length = optionalCount fields) {f : Field Layout} (hf : f ∈ fields)
    (c : Bytes) :
    mapSpan? fields (mapImage fixed chunks ++ c) f = mapSpan? fields (mapImage fixed chunks) f := by
  rw [mapSpan?, mapSpan?]
  cases hplace : f.place with
  | fixed span => rfl
  | optional k =>
    have hk : k < chunks.length := hcount ▸ harranged.ordinal_lt hf hplace
    have hspan : optionalSpan? fixed.length (optionalStart fixed.length chunks.length)
        (mapImage fixed chunks ++ [] ++ c) k = _ := optionalSpan?_mapImage_append hk c
    rw [List.append_nil, hfixed, hcount, ← dataStart_eq] at hspan
    exact hspan

/-- **Images.**  An image is read alike whatever follows it. -/
theorem IsImage.readsAlike_append (h : IsImage layout b) (hwf : layout.WellFormed)
    (hvalue : decode layout (b ++ c) = decode layout b) (hsmall : b.length < 2 ^ 32) :
    ReadsAlike layout b (b ++ c) := by
  cases layout with
  | vector item limit =>
    obtain ⟨chunks, rfl⟩ := h
    have hspan := vectorSpan?_vectorImage_append hsmall c
    refine ⟨hvalue, storedCount_vectorImage_append hsmall c, fun i => ?_, fun _ => rfl, fun _ => rfl⟩
    rw [itemSpan?, itemSpan?, hspan]
  | dict key keyLength value =>
    obtain ⟨chunks, keys, hcount, hkeys, rfl⟩ := h
    have hvector := vectorImage_lt_of_dictImage hsmall
    -- a dict is a vector with its keys behind it, and more behind those
    have halone := dictImage_append chunks keys []
    rw [List.append_nil] at halone
    have hspan : ∀ i, vectorSpan? (dictImage chunks keys ++ c) i
        = vectorSpan? (dictImage chunks keys) i := by
      intro i
      rw [dictImage_append, vectorSpan?_vectorImage_append hvector, halone,
        vectorSpan?_vectorImage_append hvector]
    have hstored : storedCount (dictImage chunks keys ++ c)
        = storedCount (dictImage chunks keys) := by
      rw [dictImage_append, storedCount_vectorImage_append hvector, halone,
        storedCount_vectorImage_append hvector]
    have hstoredKeys : storedKeys (.dict key keyLength value) (dictImage chunks keys ++ c)
        = storedKeys (.dict key keyLength value) (dictImage chunks keys) := by
      have hkeysAlone : storedKeys (.dict key keyLength value) (dictImage chunks keys ++ []) = keys :=
        storedKeys_dictImage hsmall hcount hkeys
      rw [List.append_nil] at hkeysAlone
      rw [storedKeys_dictImage hsmall hcount hkeys, hkeysAlone]
    refine ⟨hvalue, hstored, fun i => ?_, fun k => ?_, fun _ => rfl⟩
    · rw [itemSpan?, itemSpan?, hspan]
    · have hindex : keyIndex? key keyLength (dictImage chunks keys ++ c) k 0
          = keyIndex? key keyLength (dictImage chunks keys) k 0 :=
        Window.entryIndex?_congr hstoredKeys k
      rw [entrySpan?, entrySpan?, hindex]
      simp only [hspan]
  | map fields =>
    obtain ⟨fixed, chunks, hfixed, hcount, rfl⟩ := h
    cases hwf with
    | map hparts harranged hnames =>
      refine ⟨hvalue, rfl, fun _ => rfl, fun _ => rfl, fun i => ?_⟩
      have hpart := partSpan?_map fields (mapImage fixed chunks) i
      have hpart' := partSpan?_map fields (mapImage fixed chunks ++ c) i
      rw [partSpan?] at hpart hpart'
      refine hpart'.trans (Eq.trans ?_ hpart.symm)
      cases hfield : fields[i]? with
      | none => rfl
      | some f =>
        have hf := List.mem_of_getElem? hfield
        simp only [Option.bind_some, mapSpan?_mapImage_append harranged hfixed hcount hf]
  | _ => exact h.elim

/-- **Self-delimiting.**  The bytes of a vector, a dict or a map take up themselves and nothing of
what is behind them, and are read alike whatever that is. -/
theorem toBytes_delimited (hlayout : layout.IsCompiled) (htable : layout.IsTable) (v : Value)
    (t : Bytes) (hsmall : (toBytes layout v ++ t).length < 2 ^ 32) :
    usedLength layout (toBytes layout v ++ t) = (toBytes layout v).length
      ∧ ReadsAlike layout (toBytes layout v) (toBytes layout v ++ t) := by
  have hwf := hlayout.wellFormed
  have himage := hwf.isImage_toBytes htable v
  have hlength : (toBytes layout v).length < 2 ^ 32 := by
    rw [List.length_append] at hsmall
    omega
  have hvalue := (hwf.sound_toBytes v).decode_append hwf htable hlength t
  exact ⟨himage.usedLength_append hlength t, himage.readsAlike_append hwf hvalue hlength⟩

/-- A dict with a hole, and bytes behind it that could be one more key. -/
theorem toBytes_delimited_dict :
    let layout : Layout := .dict (.text (some 3)) 3 (.primitive .int32)
    let b := toBytes layout (.record [("ada", .int 36), ("bob", .null)])
    usedLength layout (b ++ [101, 118, 101]) = b.length
      ∧ ReadsAlike layout b (b ++ [101, 118, 101]) := by
  have hcompiled : IsCompiled (.dict (.text (some 3)) 3 (.primitive .int32)) :=
    .of_eval ⟨0⟩ (.object [("type", .text "object"), ("btype", .text "dict"),
      ("propertyNames", .object [("type", .text "string"), ("maxLength", .number (.natural 3))]),
      ("additionalProperties", .object [("type", .text "integer")])]) (by cbv)
  exact toBytes_delimited hcompiled True.intro _ _ (by decide)

end Layout

end BinarySchema
