/-
# Sound byte strings

A byte string is sound for a layout when it has the size that the layout asks for and its tables
name its own parts, which are sound in turn (`Sound`).  Everything that is written is sound
(`WellFormed.writesSound`), and what stands behind a sound vector, dict or map does not matter to
its value (`Sound.decode_append`).
-/
import BinarySchema.Proofs.DecodeImage
import BinarySchema.Proofs.Write

namespace BinarySchema

namespace Layout

variable {layout item : Layout} {v : Value} {b c : Bytes} {u : Unsupplied}
  {fields : List (Field Layout)}

/-- The byte string is complete, and its tables are those of its parts.  A vector, a dict or a map
may have more bytes behind it. -/
inductive Sound : Layout → Bytes → Prop
  | primitive {p : Primitive} {b : Bytes} (hlength : b.length = p.width) : Sound (.primitive p) b
  | text {cap : Option Nat} {b : Bytes} (hcap : WithinCap cap b.length) : Sound (.text cap) b
  | blob {cap : Option Nat} {b : Bytes} (hcap : WithinCap cap b.length) : Sound (.blob cap) b
  | array {item : Layout} {stride capacity : Nat} {b : Bytes}
      (hlength : b.length ≤ capacity * stride) : Sound (.array item stride capacity) b
  | packed {p : Primitive} {capacity : Nat} {b : Bytes}
      (hlength : b.length ≤ packedLength p capacity) : Sound (.packed p capacity) b
  | vector {item : Layout} {limit : Option Nat} {chunks : List Bytes}
      (hchunks : ∀ chunk ∈ chunks, chunk ≠ [] → Sound item chunk) (rest : Bytes) :
      Sound (.vector item limit) (vectorImage chunks ++ rest)
  | dict {key value : Layout} {keyLength : Nat} {chunks keys : List Bytes}
      (hcount : keys.length = chunks.length) (hkeys : ∀ key ∈ keys, key.length = keyLength)
      (hchunks : ∀ chunk ∈ chunks, chunk ≠ [] → Sound value chunk) (rest : Bytes) :
      Sound (.dict key keyLength value) (dictImage chunks keys ++ rest)
  | object {fields : List (Field Layout)} {b : Bytes} (hlength : b.length = fixedRegion fields) :
      Sound (.object fields) b
  | map {fields : List (Field Layout)} {fixed : Bytes} {chunks : List Bytes}
      (hfixed : fixed.length = fixedRegion fields) (hcount : chunks.length = optionalCount fields)
      (hchunks : ∀ f ∈ fields, ∀ k chunk, f.place = .optional k → chunks[k]? = some chunk →
        chunk ≠ [] → Sound f.layout chunk) (rest : Bytes) :
      Sound (.map fields) (mapImage fixed chunks ++ rest)

/-- Whether the layout is that of a value with a table in front. -/
def IsTable : Layout → Prop
  | .vector _ _ | .dict _ _ _ | .map _ => True
  | _ => False

/-! ## Sizes -/

/-- A byte string of the size that all values of a layout share is sound. -/
theorem sound_of_fixedLength {n : Nat} (h : layout.fixedLength? = some n) (hb : b.length = n) :
    Sound layout b := by
  cases layout with
  | primitive p =>
    cases h
    exact .primitive hb
  | text cap => exact .text (.of_eq fun m hm => by rw [hb]; exact Option.some.inj (h.symm.trans hm))
  | blob cap => exact .blob (.of_eq fun m hm => by rw [hb]; exact Option.some.inj (h.symm.trans hm))
  | array item stride capacity =>
    cases h
    exact .array (le_of_eq hb)
  | packed p capacity =>
    cases h
    exact .packed (le_of_eq hb)
  | object fields =>
    cases h
    exact .object hb
  | _ => cases h

/-- Without a table, only the number of bytes counts. -/
theorem Sound.of_length_eq (h : Sound layout b) (htable : ¬ layout.IsTable)
    (hlength : c.length = b.length) : Sound layout c := by
  cases h with
  | primitive hb => exact .primitive (hlength.trans hb)
  | text hcap => exact .text (hlength ▸ hcap)
  | blob hcap => exact .blob (hlength ▸ hcap)
  | array hb => exact .array (hlength ▸ hb)
  | packed hb => exact .packed (hlength ▸ hb)
  | object hb => exact .object (hlength.trans hb)
  | _ => exact absurd True.intro htable

/-- Behind a table there may be more bytes. -/
theorem Sound.append (h : Sound layout b) (htable : layout.IsTable) (c : Bytes) :
    Sound layout (b ++ c) := by
  cases h with
  | vector hchunks rest =>
    rw [List.append_assoc]
    exact .vector hchunks _
  | dict hcount hkeys hchunks rest =>
    rw [List.append_assoc]
    exact .dict hcount hkeys hchunks _
  | map hfixed hcount hchunks rest =>
    rw [List.append_assoc]
    exact .map hfixed hcount hchunks _
  | _ => exact htable.elim

/-- A table takes bytes. -/
theorem Sound.length_pos (h : Sound layout b) (htable : layout.IsTable) : 0 < b.length := by
  cases h with
  | vector hchunks rest =>
    rw [List.length_append, length_vectorImage]
    exact Nat.add_pos_left (Nat.add_pos_left (headerLength_pos _) _) _
  | dict hcount hkeys hchunks rest =>
    rw [List.length_append, length_dictImage]
    exact Nat.add_pos_left (Nat.add_pos_left (Nat.add_pos_right _ (by decide)) _) _
  | map hfixed hcount hchunks rest =>
    rw [List.length_append, length_mapImage]
    exact Nat.add_pos_left (Nat.add_pos_left (Nat.add_pos_right _ (by decide)) _) _
  | _ => exact htable.elim

/-- The number of bytes below which nothing is written. -/
def leastLength : Layout → Nat
  | .primitive p => p.width
  | .vector _ _ => headerLength 0
  | .dict _ keyLength _ => dictOverhead keyLength 0
  | .object fields => fixedRegion fields
  | .map fields => dataStart fields
  | _ => 0

theorem write_of_lt (h : b.length < leastLength layout) : write u layout v b = .nothing b := by
  cases layout with
  | text cap => exact absurd h (Nat.not_lt_zero _)
  | blob cap => exact absurd h (Nat.not_lt_zero _)
  | array item stride capacity => exact absurd h (Nat.not_lt_zero _)
  | packed p capacity => exact absurd h (Nat.not_lt_zero _)
  | primitive p =>
    rw [leastLength] at h
    rw [write, if_neg (by omega)]
  | vector item limit =>
    unfold leastLength at h
    rw [write_vector, writeVector, if_pos h]
  | dict key keyLength value =>
    unfold leastLength at h
    rw [write_dict, writeDict, if_pos h]
  | object fields =>
    unfold leastLength at h
    rw [write, if_pos h]
  | map fields =>
    unfold leastLength at h
    rw [write, if_pos h]

/-- Every value needs that many bytes. -/
theorem leastLength_le_encodedLength (layout : Layout) (v : Value) :
    leastLength layout ≤ encodedLength layout v := by
  cases layout with
  | primitive p => rw [leastLength, encodedLength]
  | vector item limit =>
    rw [leastLength, encodedLength, headerLength, headerLength, Word.width]
    omega
  | dict key keyLength value =>
    rw [leastLength, encodedLength, dictOverhead_eq keyLength (List.length _)]
    omega
  | object fields => rw [leastLength, encodedLength]
  | map fields =>
    rw [leastLength, encodedLength]
    exact Nat.le_add_right _ _
  | _ => exact Nat.zero_le _

theorem leastLength_le_freshLength (layout : Layout) (v : Value) :
    leastLength layout ≤ freshLength layout v := by
  have hle := leastLength_le_encodedLength layout v
  cases layout with
  | text cap => exact Nat.zero_le _
  | blob cap => exact Nat.zero_le _
  | _ =>
    rw [encodedLength] at hle
    exact hle

/-! ## What is written -/

/-- Whatever is written of values of the layout is sound, where there is room for the least of it.
-/
def WritesSound (layout : Layout) : Prop :=
  ∀ u v b, leastLength layout ≤ b.length → Sound layout (write u layout v b).value

/-- What is written over the seed of a layout is sound, unless it is nothing. -/
theorem WritesSound.encodeOver (h : item.WritesSound)
    (hne : (encodeOver item v b).value ≠ []) : Sound item (encodeOver item v b).value := by
  refine h .kept v (seed item b) ?_
  -- to a slot that is too short nothing is written
  by_contra hshort
  apply hne
  rw [Layout.encodeOver, amend, write_of_lt (by omega)]
  rfl

/-- A chunk that is no hole is sound, if what is written of its part is. -/
theorem WritesSound.chunk (h : item.WritesSound) {part : Option Part} {chunk : Bytes}
    (hpart : ∀ p, part = some p → ∃ x, p.put = Layout.encodeOver item x)
    (hchunk : IsChunk part chunk) (hne : chunk ≠ []) : Sound item chunk := by
  rcases hchunk with hempty | ⟨p, slot, hp, -, rfl⟩
  · exact absurd hempty hne
  · obtain ⟨x, hx⟩ := hpart p hp
    rw [hx] at hne ⊢
    exact h.encodeOver hne

/-- So is each chunk that an item of a list is placed in. -/
theorem WritesSound.place (h : item.WritesSound) (items : List Value) (b : Bytes) :
    ∀ chunk ∈ (place (itemParts (encodedLength item) (Layout.encodeOver item) items) b).1,
      chunk ≠ [] → Sound item chunk := by
  intro chunk hchunk hne
  have hspec := place_spec (itemParts (encodedLength item) (Layout.encodeOver item) items) b
  rw [itemParts, List.forall₂_map_left_iff] at hspec
  unfold itemParts at hchunk
  obtain ⟨k, hk, rfl⟩ := List.getElem_of_mem hchunk
  refine h.chunk ?_ (hspec.get (by rw [hspec.length_eq]; exact hk) hk) hne
  intro p hp
  split_ifs at hp
  rw [← Option.some.inj hp]
  exact ⟨_, rfl⟩

theorem length_value_write (hkeep : layout.KeepsLength) (u : Unsupplied) (v : Value) (b : Bytes) :
    (write u layout v b).value.length = (write u layout v b).length := by
  obtain ⟨hbytes, hle⟩ := hkeep.1 u v b
  exact Written.length_value (by omega)

/-- A content takes no more bytes than its cap. -/
theorem withinCap_writeContent {cap : Option Nat} (content b : Bytes) :
    WithinCap cap (writeContent cap content b).length := by
  rintro n rfl
  exact Nat.min_le_left _ _

theorem writesSound_map (harranged : Arranged 0 0 fields)
    (hkeep : ∀ f ∈ fields, f.layout.KeepsLength) (hsound : ∀ f ∈ fields, f.layout.WritesSound) :
    (Layout.map fields).WritesSound := by
  intro u v b hroom
  rw [leastLength] at hroom
  have hregion := le_trans (fixedRegion_le_dataStart fields) hroom
  have hspec := place_spec (optionalParts fields v) (b.drop (dataStart fields))
  rw [write_map harranged hkeep hroom rfl, Written.value_append, ← List.append_nil (mapImage _ _)]
  refine .map (length_fixedBytes hkeep hregion) ?_ ?_ []
  · exact length_place_optionalParts _ _ _
  · intro f hf k chunk hplace hchunk hne
    -- the chunk with the number of the field is the one that its part was placed in
    have hk : k < (optionals fields).length := by
      rw [length_optionals]
      exact harranged.ordinal_lt hf hplace
    obtain ⟨hkChunk, rfl⟩ := List.getElem?_eq_some_iff.mp hchunk
    rw [optionalParts, List.forall₂_map_left_iff] at hspec
    refine (hsound f hf).chunk ?_ (hspec.get hk hkChunk) hne
    rw [List.get_eq_getElem, harranged.getElem_optionals hf hplace hk]
    intro p hp
    obtain ⟨x, -, hx⟩ := Option.bind_eq_some_iff.mp hp
    split_ifs at hx
    rw [← Option.some.inj hx]
    exact ⟨x, rfl⟩

/-- **Writing.**  What is written of a value is sound, where there is room for the least of it. -/
theorem WellFormed.writesSound (h : layout.WellFormed) : layout.WritesSound := by
  induction h with
  | primitive p =>
    intro u v b hroom
    refine .primitive ?_
    unfold leastLength at hroom
    rw [length_value_write (WellFormed.primitive p).keepsLength, write, if_pos hroom]
  | text cap =>
    intro u v b _
    refine .text ?_
    rw [length_value_write (WellFormed.text cap).keepsLength, write]
    exact withinCap_writeContent _ _
  | blob cap =>
    intro u v b _
    refine .blob ?_
    rw [length_value_write (WellFormed.blob cap).keepsLength, write]
    exact withinCap_writeContent _ _
  | array capacity hitem hstride ih =>
    intro u v b _
    refine .array ?_
    rw [length_value_write (hitem.array capacity hstride).keepsLength, write]
    exact Nat.min_le_left _ _
  | packed p capacity =>
    intro u v b _
    refine .packed ?_
    rw [length_value_write (WellFormed.packed p capacity).keepsLength, write]
    exact Nat.min_le_left _ _
  | vector limit hitem ih =>
    intro u v b hroom
    unfold leastLength at hroom
    rw [write_vector, writeVector_eq _ hroom rfl (allKeep_itemParts hitem.keepsLength.encodeOver _ _)
      rfl, Written.value_append, ← List.append_nil (vectorImage _)]
    exact .vector (ih.place _ _) []
  | @dict key value keyLength hkey hlength hvalue ihkey ihvalue =>
    intro u v b hroom
    unfold leastLength at hroom
    have hput := length_putKey hkey.keepsLength keyLength
    rw [write_dict, writeDict_eq _ hvalue.keepsLength.encodeOver hput hroom rfl, Written.value_append,
      ← List.append_nil (dictImage _ _)]
    refine .dict ?_ (length_of_mem_placeKeys _ _ hput ?_) (ihvalue.place _ _) []
    · rw [length_placeKeys]
      exact length_placeValues_fst.symm
    · rw [List.length_take, Nat.min_eq_left (dictCount_le _ _ _)]
      exact dictOverhead_dictCount_le _ hroom
  | object hparts harranged hfixed hnames ih =>
    intro u v b hroom
    rw [leastLength] at hroom
    refine .object ?_
    rw [length_value_write (WellFormed.object hparts harranged hfixed hnames).keepsLength, write,
      if_neg (by omega)]
  | map hparts harranged hnames ih =>
    exact writesSound_map harranged (fun f hf => (hparts f hf).keepsLength) ih

/-- A value that is encoded on its own is sound. -/
theorem WellFormed.sound_toBytes (h : layout.WellFormed) (v : Value) :
    Sound layout (toBytes layout v) := by
  apply h.writesSound .kept v (seed layout (zeros (freshLength layout v)))
  rw [h.keepsLength.2, length_zeros]
  exact leastLength_le_freshLength layout v

theorem WellFormed.length_toBytes_le (h : layout.WellFormed) (v : Value) :
    (toBytes layout v).length ≤ freshLength layout v := by
  rw [toBytes, Written.value, List.length_take, (h.keepsLength.encodeOver v _).1, length_zeros]
  exact Nat.min_le_right _ _

/-- A sound byte string that is overwritten with a value that fits into it stays sound. -/
theorem Sound.overwrite (h : Sound layout b) (hwf : layout.WellFormed)
    (hfits : encodedLength layout v ≤ b.length) :
    Sound layout (encodeOver layout v (zeros b.length)).bytes := by
  have hlength : (encodeOver layout v (zeros b.length)).bytes.length = b.length := by
    rw [(hwf.keepsLength.encodeOver v _).1, length_zeros]
  by_cases htable : layout.IsTable
  -- what is written is sound, and the rest of the slot may stand behind its table
  · rw [← Written.value_append_drop]
    apply Sound.append _ htable
    apply hwf.writesSound .kept v (seed layout (zeros b.length))
    rw [hwf.keepsLength.2, length_zeros]
    exact le_trans (leastLength_le_encodedLength layout v) hfits
  · exact h.of_length_eq htable hlength

/-! ## What is read -/

/-- A field at a fixed place that fits does not depend on what is appended. -/
theorem fixedValue?_append {f : Field Layout} (hfits : ∀ span, f.place = .fixed span → span.Fits b)
    (c : Bytes) : fixedValue? (b ++ c) f = fixedValue? b f := by
  cases hplace : f.place with
  | optional k => rw [fixedValue?, fixedValue?, Field.span?, hplace]; rfl
  | fixed span =>
    have hfit := hfits span hplace
    have hfit' : span.Fits (b ++ c) := by
      rw [Span.Fits, List.length_append]
      exact le_trans hfit (Nat.le_add_right _ _)
    rw [fixedValue?_of_fits hplace hfit', fixedValue?_of_fits hplace hfit, Span.slice_append hfit]

/-- Nor does a field of a sound record. -/
theorem Sound.fieldValue?_append (h : Sound layout b) (hwf : layout.WellFormed)
    (hfields : layout.fields? = some fields) {f : Field Layout} (hf : f ∈ fields) (c : Bytes) :
    fieldValue? layout (b ++ c) f = fieldValue? layout b f := by
  cases h with
  | object hlength =>
    cases hfields
    apply fixedValue?_append
    intro span hplace
    rw [Span.Fits, hlength]
    exact stop_le_fixedRegion hf hplace
  | @map fields' fixed chunks hfixed hcount hchunks rest =>
    cases hfields
    cases hwf with
    | map hparts harranged hnames =>
      have hregion : fixedRegion fields ≤ (mapImage fixed chunks ++ rest).length := by
        rw [List.length_append, length_mapImage, hfixed, optionalStart]
        omega
      have hfixedValue := fixedValue?_append (f := f)
        (fun span hplace => le_trans (stop_le_fixedRegion hf hplace) hregion) c
      rw [fieldValue?, fieldValue?, hfixedValue]
      congr 1
      cases hplace : f.place with
      | fixed span => rw [optionalValue?, optionalValue?, Field.ordinal?, hplace]; rfl
      | optional k =>
        have hk : k < chunks.length := hcount ▸ harranged.ordinal_lt hf hplace
        have hspan : optionalSpan? fixed.length (optionalStart fixed.length chunks.length)
            (mapImage fixed chunks ++ rest ++ c) k = _ := optionalSpan?_mapImage_append hk c
        rw [hfixed, hcount, ← dataStart_eq] at hspan
        rw [optionalValue?, optionalValue?, Field.ordinal?, hplace, Option.bind_some,
          Option.bind_some, hspan]
        apply Option.map_congr
        intro span hsome
        rw [Span.slice_append (storedSpan?_fits hsome)]
  | _ => cases hfields

/-- **Records.**  What stands behind a sound record does not matter to its value. -/
theorem Sound.decode_record_append (h : Sound layout b) (hwf : layout.WellFormed)
    (hfields : layout.fields? = some fields) (hnames : (fields.map Field.name).Nodup) (c : Bytes) :
    decode layout (b ++ c) = decode layout b := by
  rw [decode_record hfields, decode_record hfields]
  congr 1
  -- records with the same fields are the same
  apply Value.Ordered.ext (ordered_decodedFields _ _) (ordered_decodedFields _ _)
  intro name
  by_cases hname : name ∈ fields.map Field.name
  · obtain ⟨f, hf, rfl⟩ := List.mem_map.mp hname
    rw [lookup_decodedFields hfields hnames hf, lookup_decodedFields hfields hnames hf,
      h.fieldValue?_append hwf hfields hf]
  · rw [lookup_decodedFields_eq_none hfields hnames hname,
      lookup_decodedFields_eq_none hfields hnames hname]

/-- **Reading.**  What stands behind a sound vector, dict or map does not matter to its value. -/
theorem Sound.decode_append (h : Sound layout b) (hwf : layout.WellFormed)
    (htable : layout.IsTable) (hsmall : b.length < 2 ^ 32) (c : Bytes) :
    decode layout (b ++ c) = decode layout b := by
  cases h with
  | vector hchunks rest =>
    rw [List.length_append] at hsmall
    rw [List.append_assoc, decode_vectorImage _ _ (by omega), decode_vectorImage _ _ (by omega)]
  | dict hcount hkeys hchunks rest =>
    rw [List.length_append] at hsmall
    rw [List.append_assoc, decode_dictImage _ _ (by omega) hcount hkeys,
      decode_dictImage _ _ (by omega) hcount hkeys]
  | map hfixed hcount hchunks rest =>
    cases hwf with
    | map hparts harranged hnames =>
      exact Sound.decode_record_append (.map hfixed hcount hchunks rest)
        (.map hparts harranged hnames) rfl hnames c
  | _ => exact htable.elim

end Layout

end BinarySchema
