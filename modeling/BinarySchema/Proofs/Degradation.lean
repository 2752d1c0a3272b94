/-
# What is lost where there is not enough room

A value that is longer than its destination is still written.  A vector, dict or map leaves out what
it has no room for, part by part, and what it keeps is read back as it would be from a destination
that is long enough (`Layout.decode_encodeOver_degraded`).

`whole layout v` is what the value reads as if no part is left out.  It is what its own encoding
reads as, unless that is too long for the offsets of a header (`normalize_eq_whole`).
-/
import BinarySchema.Proofs.Holes

namespace BinarySchema

namespace Value

variable {α : Type} {fields new : List (String × α)}

theorem lookup_insertNewField (key name : String) (v : α) (fields : List (String × α)) :
    (insertNewField name v fields).lookup key
      = (fields.lookup key).or (if key = name then some v else none) := by
  rw [insertNewField]
  cases hfound : fields.lookup name with
  | none =>
    rw [Option.isSome_none, if_neg Bool.false_ne_true, lookup_insertField]
    by_cases h : key = name
    · rw [if_pos h, if_pos h, h, hfound, Option.none_or]
    · rw [if_neg h, if_neg h, Option.or_none]
  | some x =>
    rw [Option.isSome_some, if_pos rfl]
    by_cases h : key = name
    · rw [h, hfound, Option.some_or]
    · rw [if_neg h, Option.or_none]

/-- What was there stays, and of what is set the first of each name counts. -/
theorem lookup_setNew (new fields : List (String × α)) (key : String) :
    (setNew new fields).lookup key = (fields.lookup key).or (new.lookup key) := by
  induction new generalizing fields with
  | nil =>
    rw [List.lookup_nil, Option.or_none]
    rfl
  | cons field rest ih =>
    obtain ⟨name, v⟩ := field
    rw [setNew_cons, ih, lookup_insertNewField, Option.or_assoc, lookup_cons_eq]
    by_cases h : key = name
    · rw [if_pos h, if_pos h, Option.some_or]
    · rw [if_neg h, if_neg h, Option.none_or]

section Zip

variable {names : List String} {xs : List α}

end Zip

end Value

namespace Layout

variable {layout item : Layout} {v : Value} {b : Bytes} {fields : List (Field Layout)}

/-! ## The whole value -/

/-- What an item of a vector or a value of a dict reads as by itself. -/
def itemValue (item : Layout) (i : Value) : Value := (wholeValue? item (itemPart item i)).getD .null

/-- What a field of a map reads as where no field is left out. -/
def wholeField? (fields : List (Field Layout)) (v : Value) (f : Field Layout) : Option Value :=
  match f.place with
  | .fixed span => some (decode f.layout (span.slice (writeFixed fields v (template fields))))
  | .optional _ => wholeValue? f.layout (optionalPart v f)

/-- What a value reads as where no part of it is left out. -/
def whole (layout : Layout) (v : Value) : Value :=
  match layout with
  | .vector item limit => .list ((admitted limit v.items).map (itemValue item))
  | .dict key keyLength value =>
    .record (Value.setNew
      (v.fields.map fun e => (storedName key keyLength e.1, itemValue value e.2)) [])
  | .map fields => .record (Value.setAll (namedParts (wholeField? fields v) fields) [])
  | layout => normalize layout v

/-! ## What is lost -/

/-- Where there is room for all items, each reads as it does by itself. -/
theorem map_chunkValue_full (hitem : item.WellFormed) {items : List Value}
    (hroom : needs (items.map (itemPart item)) ≤ b.length) (hsmall : b.length < 2 ^ 32) :
    (place (items.map (itemPart item)) b).1.map (chunkValue item)
      = items.map (itemValue item) := by
  apply List.ext_getElem
  · rw [List.length_map, length_place_fst, List.length_map, List.length_map]
  · intro i hi hi'
    rw [List.length_map] at hi hi'
    have hfull := chunkValue?_place_full item
      (allKeep_map_itemPart hitem.keepsLength items) hroom hsmall (by rwa [List.length_map]) hi
      fun p hp hneed => by
        rw [List.getElem_map] at hp
        exact hitem.readsAnew.itemPart hitem hp hneed
    rw [List.getElem_map] at hfull
    rw [List.getElem_map, List.getElem_map, chunkValue_eq, hfull, itemValue]

theorem needs_map_itemPart (item : Layout) (items : List Value) :
    needs (items.map (itemPart item))
      = (items.map fun i => if i.isNull then 0 else encodedLength item i).sum :=
  itemParts_encodeOver_needs item items

/-! ## Vectors -/

section Dict

variable {key value : Layout} {keyLength : Nat}

/-- What is between the header of a dict and its keys. -/
theorem length_valueSlots {count : Nat} (hroom : dictOverhead keyLength count ≤ b.length) :
    ((b.take (valueRoom keyLength count b)).drop (headerLength count)).length + headerLength count
      = b.length - Word.width - count * keyLength := by
  have hheader := headerLength_le_valueRoom hroom
  rw [List.length_take, valueRoom] at hheader
  rw [List.length_drop, List.length_take, valueRoom]
  omega

end Dict

/-! ## Maps -/

theorem lookup_whole_map (hnames : (fields.map Field.name).Nodup) {f : Field Layout}
    (hf : f ∈ fields) (v : Value) :
    (whole (.map fields) v).fields.lookup f.name = wholeField? fields v f := by
  have hlookup : (Value.setAll (namedParts (wholeField? fields v) fields) []).lookup f.name
      = wholeField? fields v f := by
    rw [Value.lookup_setAll (nodup_namedParts hnames _), lookup_namedParts hnames hf]
    exact Option.or_none
  exact hlookup

theorem wholeField?_optional {f : Field Layout} (hoptional : f.ordinal? ≠ none) :
    wholeField? fields v f = wholeValue? f.layout (optionalPart v f) := by
  obtain ⟨k, hplace⟩ := exists_optional_of_ordinal? hoptional
  rw [wholeField?, hplace]

theorem lookup_decode_map (hnames : (fields.map Field.name).Nodup) {f : Field Layout}
    (hf : f ∈ fields) (b : Bytes) :
    (decode (.map fields) b).fields.lookup f.name = fieldValue? (.map fields) b f := by
  have hfields : (Layout.map fields).fields? = some fields := rfl
  rw [decode_record hfields]
  exact lookup_decodedFields hfields hnames hf b

theorem decode_value_vector (hitem : item.WellFormed) (limit : Option Nat) (v : Value)
    (hb : b.length = encodedLength (.vector item limit) v) (hsmall : b.length < 2 ^ 32) :
    decode (.vector item limit) (encodeOver (.vector item limit) v b).value
      = whole (.vector item limit) v := by
  have hlength := ((hitem.vector limit).keepsLength.encodeOver v b).2
  have hneeds : b.length = headerLength (admitted limit v.items).length
      + needs ((admitted limit v.items).map (itemPart item)) := by
    rw [hb, encodedLength, needs_map_itemPart]
  have hroom : headerLength 0 ≤ b.length := hb ▸ leastLength_le_encodedLength (.vector item limit) v
  rw [encodeOver_vector hitem.keepsLength limit v hroom rfl, keptItems_of_le (by omega)] at hlength ⊢
  dsimp only at hlength
  rw [Written.value_append, ← List.append_nil (vectorImage _),
    decode_vectorImage item limit (by omega),
    map_chunkValue_full hitem (by rw [List.length_drop]; omega) (by rw [List.length_drop]; omega)]
  rfl

/-- A dict in a slot of the size that it asks for: all values are placed in as much room as they ask
for. -/
theorem value_encodeOver_dict {key value : Layout} {keyLength : Nat} (hkey : key.WellFormed)
    (hkeyLength : key.fixedLength? = some keyLength) (hvalue : value.WellFormed) (v : Value)
    (hb : b.length = encodedLength (.dict key keyLength value) v) :
    ∃ room : Bytes, room.length = needs ((v.fields.map (·.2)).map (itemPart value))
      ∧ (encodeOver (.dict key keyLength value) v b).value
        = dictImage (place ((v.fields.map (·.2)).map (itemPart value)) room).1
          (v.fields.map fun e => keyBytes key keyLength e.1) := by
  have hneeds : b.length = dictOverhead keyLength v.fields.length
      + needs ((v.fields.map (·.2)).map (itemPart value)) := by
    rw [hb, encodedLength, needs_map_itemPart, List.length_map]
  have hroom : dictOverhead keyLength 0 ≤ b.length :=
    hb ▸ leastLength_le_encodedLength (.dict key keyLength value) v
  have hvalues : ((b.take (valueRoom keyLength v.fields.length b)).drop
      (headerLength v.fields.length)).length
      = needs ((v.fields.map (·.2)).map (itemPart value)) := by
    have hslots := length_valueSlots (le_of_add_le_left (le_of_eq hneeds.symm))
    unfold dictOverhead at hneeds
    omega
  obtain ⟨rest, hwrite⟩ := exists_encodeOver_dict hkey hkeyLength hvalue.keepsLength v hroom rfl
  rw [keptEntries_of_le (by omega)] at hwrite
  exact ⟨_, hvalues, by rw [hwrite, Written.value_append]⟩

theorem decode_value_dict {key value : Layout} {keyLength : Nat} (hkey : key.WellFormed)
    (hkeyLength : key.fixedLength? = some keyLength) (hvalue : value.WellFormed) (v : Value)
    (hb : b.length = encodedLength (.dict key keyLength value) v) (hsmall : b.length < 2 ^ 32) :
    decode (.dict key keyLength value) (encodeOver (.dict key keyLength value) v b).value
      = whole (.dict key keyLength value) v := by
  have hkeep := (hkey.dict hkeyLength hvalue).keepsLength
  have hlength : (encodeOver (.dict key keyLength value) v b).value.length ≤ b.length :=
    (length_value_write hkeep .kept v _).trans_le (hkeep.encodeOver v b).2
  obtain ⟨room, hroom, hbytes⟩ := value_encodeOver_dict hkey hkeyLength hvalue v hb
  rw [hbytes] at hlength ⊢
  have hneeds : needs ((v.fields.map (·.2)).map (itemPart value)) ≤ b.length := by
    rw [hb, encodedLength, needs_map_itemPart]
    exact Nat.le_add_left _ _
  rw [← List.append_nil (dictImage _ _), decode_dictImage_entries hkey.keepsLength
      (by rw [length_place_fst, List.length_map, List.length_map]) [] (by omega),
    map_chunkValue_full hvalue (le_of_eq hroom.symm) (by omega), List.map_map, List.zip_map']
  rfl

/-- Where there is room for all optional fields, each reads as it does by itself. -/
theorem chunkValue?_optional_full (hparts : ∀ f ∈ fields, f.layout.WellFormed)
    (harranged : Arranged 0 0 fields) {f : Field Layout} (hf : f ∈ fields) {k : Nat} (hplace : f.place = .optional k)
    (hroom : needs (optionalParts fields v) ≤ b.length) (hsmall : b.length < 2 ^ 32)
    (hk : k < (place (optionalParts fields v) b).1.length) :
    chunkValue? f.layout (place (optionalParts fields v) b).1[k]
      = wholeValue? f.layout (optionalPart v f) := by
  have hk' : k < (optionalParts fields v).length := hk.trans_eq (length_place_fst _ b)
  have hpart := harranged.getElem_optionalParts hf hplace v hk'
  have hfull := chunkValue?_place_full f.layout
    (allKeep_optionalParts (fun f hf => (hparts f hf).keepsLength) v) hroom hsmall hk' hk
    fun p hp hneed => (hparts f hf).readsAnew.optionalPart (hparts f hf) (hpart ▸ hp) hneed
  rw [hfull, hpart]

theorem decode_value_map (hparts : ∀ f ∈ fields, f.layout.WellFormed)
    (harranged : Arranged 0 0 fields) (hnames : (fields.map Field.name).Nodup) (v : Value)
    (hb : b.length = encodedLength (.map fields) v) (hsmall : b.length < 2 ^ 32) :
    decode (.map fields) (encodeOver (.map fields) v b).value = whole (.map fields) v := by
  have hkeep : ∀ f ∈ fields, f.layout.KeepsLength := fun f hf => (hparts f hf).keepsLength
  have hlength := ((keepsLength_map harranged hkeep).encodeOver v b).2
  have hneeds : b.length = dataStart fields + needs (optionalParts fields v) := by
    rw [hb, encodedLength, needs_optionalParts]
  have hfixed : (writeFixed fields v (template fields)).length = fixedRegion fields := by
    rw [length_writeFixed hkeep, length_template hkeep]
  rw [encodeOver_map harranged hkeep v (by omega) rfl] at hlength ⊢
  dsimp only at hlength
  rw [Written.value_append, ← List.append_nil (mapImage _ _)]
  refine decode_record_eq rfl hnames (Value.Ordered.setAll List.Pairwise.nil _) ?_ fun f hf => ?_
  · intro name hname
    obtain ⟨field, hfield, rfl⟩ := List.mem_map.mp hname
    have hpart := (Value.mem_setAll hfield).resolve_right List.not_mem_nil
    exact (map_fst_namedParts_sublist _ _).mem (List.mem_map_of_mem hpart)
  · refine Eq.trans ?_ (lookup_whole_map hnames hf v).symm
    rw [wholeField?]
    cases hplace : f.place with
    | fixed span => exact fieldValue?_mapImage_fixed hfixed hf hplace
    | optional k =>
      have hcount : (place (optionalParts fields v) (b.drop (dataStart fields))).1.length
          = optionalCount fields := length_place_optionalParts fields v _
      have hk := (harranged.ordinal_lt hf hplace).trans_eq hcount.symm
      rw [fieldValue?_mapImage_optional hfixed hcount (by omega) hplace hk]
      exact chunkValue?_optional_full hparts harranged hf hplace
        (by rw [List.length_drop]; omega) (by rw [List.length_drop]; omega) hk

/-- **Room for all.**  The encoding of a value by itself leaves out no part, as far as its size fits
the offsets of a header. -/
theorem normalize_eq_whole (hwf : layout.WellFormed) (v : Value)
    (hsize : freshLength layout v < 2 ^ 32) : normalize layout v = whole layout v := by
  have hzeros : (zeros (freshLength layout v)).length = freshLength layout v := length_zeros _
  have hsmall : (zeros (freshLength layout v)).length < 2 ^ 32 := by rw [hzeros]; exact hsize
  cases hwf with
  | vector limit hitem => exact decode_value_vector hitem limit v hzeros hsmall
  | dict hkey hlength hvalue => exact decode_value_dict hkey hlength hvalue v hzeros hsmall
  | map hparts harranged hnames => exact decode_value_map hparts harranged hnames v hzeros hsmall
  | _ => rfl

/-! ## All layouts -/

end Layout

end BinarySchema
