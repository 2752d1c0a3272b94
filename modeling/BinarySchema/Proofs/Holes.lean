/-
# Holes of maps

An optional field of a map is there when it is read if the value that is written for it takes at
least one byte (`get?_normalize_iff`).  That value is the one of the record, or else the default of
the field.  So a field that is absent once a record has been stored stays absent when that is stored
again, unless it has a default that takes up bytes (`normalize_keeps_hole`).  In that case it was
absent only because the record had a value for it that takes none: the hole that this leaves cannot
be told from a field that is not there, and the default fills it (`normalize_fills_hole`).
-/
import BinarySchema.Proofs.SlotReading

namespace BinarySchema

namespace Layout

variable {layout : Layout} {v : Value} {f : Field Layout} {fields : List (Field Layout)}
  {fixed rest chunk : Bytes} {chunks : List Bytes}

/-- What a value reads as once it has been stored. -/
def normalize (layout : Layout) (v : Value) : Value := decode layout (toBytes layout v)

/-- The number of bytes that a value takes as an optional field. -/
def takenLength (f : Field Layout) (x : Value) : Nat :=
  (encodeOver f.layout x (zeros (capped f.maxLength (encodedLength f.layout x)))).length

/-! ## Chunks of optional fields -/

/-- In any slot of the size that it asks for, a value takes the same number of bytes. -/
theorem length_value_encodeOver (hwf : f.layout.WellFormed) (x : Value) {slot : Bytes}
    (hslot : slot.length = capped f.maxLength (encodedLength f.layout x)) :
    (encodeOver f.layout x slot).value.length = takenLength f x := by
  have hkeep := hwf.keepsLength.encodeOver x slot
  rw [Written.length_value (by omega), takenLength]
  refine hwf.length_write_congr x ?_
  rw [hwf.keepsLength.2, hwf.keepsLength.2, hslot, length_zeros]

/-- A field that takes bytes asks for some. -/
theorem takenLength_le (hwf : f.layout.WellFormed) (x : Value) :
    takenLength f x ≤ capped f.maxLength (encodedLength f.layout x) := by
  have hle := (hwf.keepsLength.encodeOver x
    (zeros (capped f.maxLength (encodedLength f.layout x)))).2
  rwa [length_zeros] at hle

/-- Bytes are there only for a value that takes some. -/
theorem takenLength_pos_of_isChunk (hwf : f.layout.WellFormed)
    (hchunk : IsChunk (optionalPart v f) chunk) (hne : chunk ≠ []) :
    ∃ x, f.pick? v = some x ∧ 0 < takenLength f x := by
  rcases hchunk with hempty | ⟨p, slot, hp, hslot, rfl⟩
  · exact absurd hempty hne
  · obtain ⟨x, hx, hpart⟩ := Option.bind_eq_some_iff.mp hp
    split_ifs at hpart
    obtain rfl := Option.some.inj hpart
    refine ⟨x, hx, ?_⟩
    rw [← length_value_encodeOver hwf x hslot]
    exact List.length_pos_of_ne_nil hne

/-- Where no field is left out, a value that takes bytes has a chunk. -/
theorem ne_nil_of_isFullChunk (hwf : f.layout.WellFormed) {x : Value} (hx : f.pick? v = some x)
    (hpos : 0 < takenLength f x) (hchunk : IsFullChunk (optionalPart v f) chunk) : chunk ≠ [] := by
  have hneed : 0 < capped f.maxLength (encodedLength f.layout x) :=
    lt_of_lt_of_le hpos (takenLength_le hwf x)
  rw [optionalPart, hx, Option.bind_some, if_pos hneed] at hchunk
  obtain ⟨slot, hslot, rfl⟩ := hchunk
  apply List.ne_nil_of_length_pos
  exact (length_value_encodeOver hwf x hslot).symm ▸ hpos

/-! ## Spans of holes -/

/-- What ends where it begins, or before, has no span. -/
theorem storedSpan?_of_le {b : Bytes} {start stop : Nat} (h : stop ≤ start) :
    storedSpan? b (some start) (some stop) = none := by
  have heq : storedSpan? b (some start) (some stop)
      = if stop ≤ b.length then Span.between? start stop else none := rfl
  rw [heq, Span.between?]
  split_ifs
  · omega
  all_goals rfl

/-- A chunk without bytes has no span, also where offsets do not fit a word: it ends where it
begins, and so do the words that say so. -/
theorem optionalSpan?_mapImage_of_nil {i : Nat} (hi : i < chunks.length) (hempty : chunks[i] = []) :
    optionalSpan? fixed.length (optionalStart fixed.length chunks.length)
      (mapImage fixed chunks ++ rest) i = none := by
  have hsucc : runStart (optionalStart fixed.length chunks.length) chunks (i + 1)
      = runStart (optionalStart fixed.length chunks.length) chunks i := by
    rw [runStart_succ _ hi, hempty, List.length_nil, Nat.add_zero]
  unfold optionalSpan?
  dsimp only
  rw [storedOffset?_mapImage_ofLength (le_of_lt hi), hsucc]
  by_cases hzero : i = 0
  · subst hzero
    rw [if_pos rfl, runStart_zero]
    exact storedSpan?_of_le (Word.toNat_ofLength_le _)
  · rw [if_neg hzero, storedOffset?_mapImage_ofLength (by omega), Nat.sub_add_cancel (by omega)]
    exact storedSpan?_of_le (le_refl _)

/-! ## Absent fields -/

/-- What an optional field of a map reads as. -/
theorem get?_decode_map (hnames : (fields.map Field.name).Nodup) (hf : f ∈ fields) {k : Nat}
    (hplace : f.place = .optional k) (b : Bytes) :
    (decode (.map fields) b).get? f.name
      = (optionalSpan? (fixedRegion fields) (dataStart fields) b k).map fun span =>
        decode f.layout (span.slice b) := by
  have hvalue : fieldValue? (.map fields) b f
      = (optionalSpan? (fixedRegion fields) (dataStart fields) b k).map fun span =>
        decode f.layout (span.slice b) := by
    rw [fieldValue?, fixedValue?, Field.span?, optionalValue?, Field.ordinal?, hplace]
    exact Option.or_none
  rw [decode_record rfl]
  cases hspan : optionalSpan? (fixedRegion fields) (dataStart fields) b k with
  | none =>
    rw [hspan] at hvalue
    exact get?_record_eq_none ((lookup_decodedFields rfl hnames hf b).trans hvalue)
  | some span =>
    rw [hspan] at hvalue
    exact get?_record ((lookup_decodedFields rfl hnames hf b).trans hvalue) (decode_ne_null _ _)

/-- A map in a slot of the size that it asks for: its fields at fixed places are written over the
defaults, and all others are placed in as much room as they ask for. -/
theorem value_encodeOver_map (hwf : (Layout.map fields).WellFormed) {slot : Bytes}
    (hslot : slot.length = encodedLength (.map fields) v) :
    ∃ room : Bytes, room.length = needs (optionalParts fields v)
      ∧ (encodeOver (.map fields) v slot).value
        = mapImage (writeFixed fields v (template fields)) (place (optionalParts fields v) room).1 := by
  have hlength : slot.length = dataStart fields + needs (optionalParts fields v) := by
    rw [hslot, needs_optionalParts]
    exact encodedLength.eq_def (.map fields) v
  cases hwf with
  | map hparts harranged hnames =>
    refine ⟨slot.drop (dataStart fields), ?_, ?_⟩
    · rw [List.length_drop, hlength, Nat.add_sub_cancel_left]
    · rw [encodeOver_map harranged (fun f hf => (hparts f hf).keepsLength) v (by omega) rfl,
        Written.value_append]

/-- **Presence.**  An optional field is read only if a value that takes bytes is written for it, and
it is read then unless the map is too long for its table. -/
theorem get?_normalize_iff (hwf : (Layout.map fields).WellFormed) (hf : f ∈ fields)
    (hoptional : f.ordinal? ≠ none) (v : Value) :
    ((normalize (.map fields) v).get? f.name ≠ none →
      ∃ x, f.pick? v = some x ∧ 0 < takenLength f x)
    ∧ (freshLength (.map fields) v < 2 ^ 32 → (∃ x, f.pick? v = some x ∧ 0 < takenLength f x) →
      (normalize (.map fields) v).get? f.name ≠ none) := by
  have hsize := hwf.length_toBytes_le v
  have hslot : (zeros (freshLength (.map fields) v)).length = encodedLength (.map fields) v :=
    length_zeros _
  obtain ⟨room, hroom, hbytes⟩ := value_encodeOver_map hwf hslot
  rw [← toBytes] at hbytes
  cases hwf with
  | map hparts harranged hnames =>
    have hkeep := fun f hf => (hparts f hf).keepsLength
    have hfixed : (writeFixed fields v (template fields)).length = fixedRegion fields := by
      rw [length_writeFixed hkeep, length_template hkeep]
    generalize writeFixed fields v (template fields) = fixed at hbytes hfixed
    cases hplace : f.place with
    | fixed span =>
      rw [Field.ordinal?, hplace] at hoptional
      exact absurd rfl hoptional
    | optional k =>
      have hspec := place_spec (optionalParts fields v) room
      have hfull := place_full (allKeep_optionalParts hkeep v) (le_of_eq hroom.symm)
      have hcount := length_place_optionalParts fields v room
      generalize (place (optionalParts fields v) room).1 = chunks at hbytes hspec hfull hcount
      have hk : k < (optionals fields).length := by
        rw [length_optionals]
        exact harranged.ordinal_lt hf hplace
      have hkChunks : k < chunks.length := by rwa [hcount, ← length_optionals]
      -- the chunk of the field is what its part was written to
      rw [optionalParts, List.forall₂_map_left_iff] at hspec hfull
      have hchunk := hspec.get hk hkChunks
      have hfullChunk := hfull.get hk hkChunks
      rw [List.get_eq_getElem, List.get_eq_getElem, harranged.getElem_optionals hf hplace hk]
        at hchunk hfullChunk
      have hstart : optionalStart fixed.length chunks.length = dataStart fields := by
        rw [hfixed, hcount, dataStart_eq]
      rw [normalize, hbytes, get?_decode_map hnames hf hplace, ← hstart, ← hfixed,
        ← List.append_nil (mapImage fixed chunks)]
      constructor
      · intro hpresent
        refine takenLength_pos_of_isChunk (hparts f hf) hchunk fun hempty => hpresent ?_
        rw [optionalSpan?_mapImage_of_nil hkChunks hempty, Option.map_none]
      · rintro hsmall ⟨x, hx, hpos⟩
        have hne := ne_nil_of_isFullChunk (hparts f hf) hx hpos hfullChunk
        rw [optionalSpan?_mapImage [] (by rw [← hbytes]; omega) hkChunks,
          if_neg (by rw [List.length_eq_zero_iff]; exact hne), Option.map_some]
        exact Option.some_ne_none _

/-- **Holes.**  An optional field that is absent once a record has been stored is absent when that is
stored again, unless it has a default that takes bytes.  Such a default does come back, as far as
sizes fit a word, and the field was absent only because its value took no bytes. -/
theorem normalize_keeps_hole (hlayout : (Layout.map fields).IsCompiled) (hf : f ∈ fields)
    (hoptional : f.ordinal? ≠ none) {d : Value}
    (habsent : (normalize (.map fields) d).get? f.name = none) :
    ((normalize (.map fields) (normalize (.map fields) d)).get? f.name ≠ none →
      ∃ x, f.default = some x ∧ 0 < takenLength f x)
    ∧ (freshLength (.map fields) d < 2 ^ 32 →
      freshLength (.map fields) (normalize (.map fields) d) < 2 ^ 32 →
      ∀ x, f.default = some x → 0 < takenLength f x →
        (normalize (.map fields) (normalize (.map fields) d)).get? f.name ≠ none
          ∧ ∃ y, d.get? f.name = some y ∧ takenLength f y = 0) := by
  have hwf := hlayout.wellFormed
  -- where the record lacks the field, the default is what is written
  have hpick : f.pick? (normalize (.map fields) d) = f.default := by
    rw [Field.pick?, habsent, Option.none_or]
  have hagain := get?_normalize_iff hwf hf hoptional (normalize (.map fields) d)
  rw [hpick] at hagain
  refine ⟨hagain.1, fun hsmall hsmall' x hx hpos => ⟨hagain.2 hsmall' ⟨x, hx, hpos⟩, ?_⟩⟩
  have hnone : ∀ y, f.pick? d = some y → takenLength f y = 0 := by
    intro y hy
    by_contra hne
    exact (get?_normalize_iff hwf hf hoptional d).2 hsmall ⟨y, hy, Nat.pos_of_ne_zero hne⟩ habsent
  cases hy : d.get? f.name with
  | some y => exact ⟨y, rfl, hnone y (by rw [Field.pick?, hy, Option.some_or])⟩
  | none =>
    have hzero := hnone x (by rw [Field.pick?, hy, Option.none_or, hx])
    omega

/-- A record with an empty name and an empty note.  The note has a default and the name has none: the
name stays absent. -/
theorem normalize_keeps_hole_name :
    let layout : Layout := .map [⟨"name", .text none, .optional 0, none, none⟩,
      ⟨"note", .text none, .optional 1, some (.text "-"), none⟩]
    let d : Value := .record [("name", .text ""), ("note", .text "")]
    (normalize layout d).get? "name" = none
      ∧ (normalize layout (normalize layout d)).get? "name" = none := by
  intro layout d
  have hcompiled : layout.IsCompiled := .of_eval ⟨0⟩ (.object
    [("type", .text "object"), ("btype", .text "map"), ("properties", .object
      [("name", .object [("type", .text "string")]),
        ("note", .object [("type", .text "string"), ("default", .text "-")])])]) (by cbv)
  have habsent : (normalize layout d).get? "name" = none := by decide +kernel
  have hkeeps := normalize_keeps_hole hcompiled (f := ⟨"name", .text none, .optional 0, none, none⟩)
    List.mem_cons_self (by decide) habsent
  refine ⟨habsent, ?_⟩
  by_contra hpresent
  obtain ⟨x, hx, -⟩ := hkeeps.1 hpresent
  cases hx

/-- A field that an empty text was given for comes back with its default. -/
theorem normalize_fills_hole :
    ¬ ∀ (fields : List (Field Layout)) (f : Field Layout) (d : Value),
      (Layout.map fields).IsCompiled → f ∈ fields → f.ordinal? ≠ none →
      (normalize (.map fields) d).get? f.name = none →
      (normalize (.map fields) (normalize (.map fields) d)).get? f.name = none := by
  intro h
  have hcompiled : (Layout.map
      [⟨"nick", .text none, .optional 0, some (.text "x"), none⟩]).IsCompiled :=
    .of_eval ⟨0⟩ (.object
      [("type", .text "object"), ("btype", .text "map"), ("properties", .object
        [("nick", .object [("type", .text "string"), ("default", .text "x")])])]) (by cbv)
  have hback := h _ _ (.record [("nick", .text "")]) hcompiled List.mem_cons_self (by decide)
    (by decide +kernel)
  revert hback
  decide +kernel

end Layout

end BinarySchema
