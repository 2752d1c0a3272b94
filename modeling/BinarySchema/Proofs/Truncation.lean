/-
# Writing where there is too little room

A vector, a dict or a map that does not fit is cut down to what does, and its header stays
consistent: `encode_truncated` says so for byte strings of any length and content.  Nothing is
written only where not even the smallest header fits; otherwise the header names as many items as
there is room for, its offsets ascend, and the last one is the number of bytes that were written.
-/
import BinarySchema.Proofs.ReadSchema
import BinarySchema.Proofs.Write

namespace BinarySchema

namespace Layout

/-! ## Consistent headers -/

/-- The offsets begin at `start`, never decrease, and the last one is `stop`. -/
def Ascends (start : Nat) (offsets : List Nat) (stop : Nat) : Prop :=
  (start :: offsets).Pairwise (· ≤ ·) ∧ offsets.getLastD start = stop

/-- The offsets are stored one behind the other, the first at `offset`. -/
def StoredAt (b : Bytes) (offset : Nat) (offsets : List Nat) : Prop :=
  ∀ i (hi : i < offsets.length), storedOffset? b (offset + i * Word.width) = some offsets[i]

/-- The spans lie one behind the other, without gaps, from `start` to `stop`, and none is empty. -/
def Tiles (start : Nat) : List Span → (stop : Nat) → Prop
  | [], stop => start = stop
  | span :: rest, stop => span.start = start ∧ 0 < span.length ∧ Tiles span.stop rest stop

/-- The header of a vector of `length` bytes that was written to `room` bytes. -/
def VectorHeader (limit : Option Nat) (v : Value) (room : Nat) (b : Bytes) (length : Nat) : Prop :=
  IsGreatest {c | c ≤ (admitted limit v.items).length ∧ headerLength c ≤ room} (storedCount b)
    ∧ ∃ offsets, offsets.length = storedCount b
      ∧ StoredAt b (entryOffset 0) (headerLength (storedCount b) :: offsets)
      ∧ Ascends (headerLength (storedCount b)) offsets length

/-- The header of a dict of `length` bytes that was written to `room` bytes, and the word that says
where its keys begin. -/
def DictHeader (keyLength : Nat) (v : Value) (room : Nat) (b : Bytes) (length : Nat) : Prop :=
  IsGreatest {c | c ≤ v.fields.length ∧ dictOverhead keyLength c ≤ room} (storedCount b)
    ∧ ∃ offsets stop, offsets.length = storedCount b
      ∧ StoredAt b (entryOffset 0) (headerLength (storedCount b) :: offsets)
      ∧ Ascends (headerLength (storedCount b)) offsets stop
      ∧ storedOffset? b stop = some (stop + Word.width)
      ∧ stop + Word.width + storedCount b * keyLength = length

/-- The spans of the optional fields that are present, in the order of declaration. -/
def presentSpans (fields : List (Field Layout)) (b : Bytes) : List Span :=
  (optionals fields).filterMap fun f =>
    f.ordinal?.bind (optionalSpan? (fixedRegion fields) (dataStart fields) b)

/-- The table of a map of `length` bytes, and where its optional fields lie. -/
def MapHeader (fields : List (Field Layout)) (b : Bytes) (length : Nat) : Prop :=
  (∃ offsets, offsets.length = optionalCount fields
      ∧ StoredAt b (endOffset fields 0) offsets ∧ Ascends (dataStart fields) offsets length)
    ∧ Tiles (dataStart fields) (presentSpans fields b) length

/-- The number of bytes of the smallest header, for the layouts that have one. -/
def smallest? : Layout → Option Nat
  | .vector _ _ => some 8
  | .dict _ _ _ => some 12
  | .map fields => some (dataStart fields)
  | _ => none

/-- Whether a value of `length` bytes, written to `room` bytes, has a consistent header. -/
def HeaderConsistent (layout : Layout) (v : Value) (room : Nat) (b : Bytes) (length : Nat) : Prop :=
  match layout with
  | .vector _ limit => VectorHeader limit v room b length
  | .dict _ keyLength _ => DictHeader keyLength v room b length
  | .map fields => MapHeader fields b length
  | _ => True

/-! ## Headers of images -/

variable {chunks keys : List Bytes} {fixed rest : Bytes}

theorem le_of_mem_ends {start : Nat} {runs : List Bytes} {n : Nat} (h : n ∈ ends start runs) :
    start ≤ n := by
  induction runs generalizing start with
  | nil => exact absurd h List.not_mem_nil
  | cons run runs ih =>
    unfold ends at h
    rcases List.mem_cons.mp h with rfl | h
    · exact Nat.le_add_right _ _
    · exact le_trans (Nat.le_add_right _ _) (ih h)

/-- The ends of runs ascend to the end of the last one. -/
theorem ascends_ends (start : Nat) (runs : List Bytes) :
    Ascends start (ends start runs) (start + runs.flatten.length) := by
  refine ⟨?_, getLastD_ends start runs⟩
  induction runs generalizing start with
  | nil => exact List.pairwise_singleton _ _
  | cons run runs ih =>
    refine List.Pairwise.cons ?_ (ih (start + run.length))
    intro n hn
    exact le_of_mem_ends (show n ∈ ends start (run :: runs) from hn)

/-- The table of a vector is stored behind its count. -/
theorem storedAt_vectorImage (hsmall : (vectorImage chunks).length < 2 ^ 32) :
    StoredAt (vectorImage chunks ++ rest) (entryOffset 0)
      (headerLength chunks.length :: ends (headerLength chunks.length) chunks) := by
  intro i hi
  have hle : i ≤ chunks.length := by
    rw [List.length_cons, length_ends] at hi
    omega
  have hoffset : entryOffset 0 + i * Word.width = entryOffset i := by
    unfold entryOffset
    omega
  rw [hoffset, storedOffset?_vectorImage hsmall hle, getElem_start_cons_ends]

/-- The spans of runs that are no holes lie one behind the other. -/
theorem tiles_runs (start : Nat) (runs : List Bytes) (spanAt : Nat → Option Span)
    (hspan : ∀ i (hi : i < runs.length), spanAt i
      = if runs[i].length = 0 then none else some ⟨runStart start runs i, runs[i].length⟩) :
    Tiles start ((List.range runs.length).filterMap spanAt) (start + runs.flatten.length) := by
  induction runs generalizing start spanAt with
  | nil => rfl
  | cons run runs ih =>
    have hfirst := hspan 0 (Nat.zero_lt_succ _)
    have hothers := ih (start + run.length) (spanAt ∘ Nat.succ) (by
      intro i hi
      have hnext := hspan (i + 1) (Nat.succ_lt_succ hi)
      rw [runStart_cons_succ, List.getElem_cons_succ] at hnext
      exact hnext)
    rw [List.getElem_cons_zero, runStart_zero] at hfirst
    rw [List.length_cons, List.range_succ_eq_map, List.flatten_cons, List.length_append,
      ← Nat.add_assoc]
    -- an empty run is a hole, which has no span
    by_cases hempty : run.length = 0
    · rw [if_pos hempty] at hfirst
      rw [List.filterMap_cons_none hfirst, List.filterMap_map]
      rw [hempty] at hothers ⊢
      exact hothers
    · rw [if_neg hempty] at hfirst
      rw [List.filterMap_cons_some hfirst, List.filterMap_map]
      exact ⟨rfl, Nat.pos_of_ne_zero hempty, hothers⟩

theorem mapHeader_mapImage {fields : List (Field Layout)} (harranged : Arranged 0 0 fields)
    (hfixed : fixed.length = fixedRegion fields) (hcount : chunks.length = optionalCount fields)
    (hsmall : (mapImage fixed chunks).length < 2 ^ 32) :
    MapHeader fields (mapImage fixed chunks ++ rest) (mapImage fixed chunks).length := by
  have hstart : optionalStart fixed.length chunks.length = dataStart fields := by
    rw [hfixed, hcount, dataStart_eq]
  rw [length_mapImage, hstart]
  constructor
  · refine ⟨ends (dataStart fields) chunks, by rw [length_ends, hcount], ?_, ascends_ends _ _⟩
    intro i hi
    rw [length_ends] at hi
    have hoffset : endOffset fields 0 + i * Word.width = fixed.length + i * Word.width := by
      rw [endOffset, hfixed, Nat.zero_mul, Nat.add_zero]
    rw [hoffset, storedOffset?_mapImage hsmall (by omega), getElem_ends, hstart]
  · have hpresent : presentSpans fields (mapImage fixed chunks ++ rest)
        = (List.range chunks.length).filterMap (optionalSpan? (fixedRegion fields)
          (dataStart fields) (mapImage fixed chunks ++ rest)) := by
      have hmap : presentSpans fields (mapImage fixed chunks ++ rest)
          = ((optionals fields).map Field.ordinal?).filterMap fun ordinal? => ordinal?.bind
            (optionalSpan? (fixedRegion fields) (dataStart fields) (mapImage fixed chunks ++ rest)) := by
        rw [presentSpans, List.filterMap_map]
        rfl
      rw [hmap, harranged.ordinals, List.filterMap_map, hcount]
      rfl
    rw [hpresent]
    apply tiles_runs
    intro i hi
    have hspan := optionalSpan?_mapImage rest hsmall hi
    rw [hstart, hfixed] at hspan
    exact hspan

/-! ## Headers of what is written -/

variable {v : Value} {b : Bytes}

/-- What is shown of a value that is written to a byte string, if it has any bytes at all. -/
def Consistent (layout : Layout) (v : Value) (room : Nat) (w : Written) : Prop :=
  usedLength layout w.bytes = w.length ∧ HeaderConsistent layout v room w.bytes w.length

theorem consistent_vector {item : Layout} (hitem : item.KeepsLength) (u : Unsupplied)
    (limit : Option Nat) (v : Value) (hsmall : b.length < 2 ^ 32)
    (hroom : headerLength 0 ≤ b.length) :
    0 < (write u (.vector item limit) v b).length
      ∧ Consistent (.vector item limit) v b.length (write u (.vector item limit) v b) := by
  have hle := (keeps_writeVector (encodedLength item) hitem.encodeOver
    (admitted limit v.items) b).2
  rw [write_vector]
  obtain ⟨count, hcount⟩ : ∃ count,
    vectorCount (admitted limit v.items).length b.length = count := ⟨_, rfl⟩
  have hcountLe : count ≤ (admitted limit v.items).length := hcount ▸ vectorCount_le _ _
  have hwrite := writeVector_eq count hroom hcount
    (allKeep_itemParts hitem.encodeOver (encodedLength item) _) rfl
  generalize hp : place (itemParts (encodedLength item) (encodeOver item)
    ((admitted limit v.items).take count)) (b.drop (headerLength count)) = p at hwrite
  have hlength : p.1.length = count := by
    rw [← hp, length_place_fst, length_itemParts, List.length_take, Nat.min_eq_left hcountLe]
  rw [hwrite] at hle ⊢
  have himage : (vectorImage p.1).length < 2 ^ 32 := lt_of_le_of_lt hle hsmall
  refine ⟨?_, usedLength_vectorImage item limit himage, ?_, ends (headerLength p.1.length) p.1,
    ?_, ?_, ?_⟩
  · have hpos := headerLength_pos p.1.length
    show 0 < (vectorImage p.1).length
    rw [length_vectorImage]
    omega
  · rw [storedCount_vectorImage himage, hlength]
    refine ⟨⟨hcountLe, hcount ▸ headerLength_vectorCount_le _ hroom⟩, ?_⟩
    -- the header of one more item would not fit
    rintro c ⟨hc, hfits⟩
    by_contra hlt
    exact absurd (room_lt_headerLength b.length (by omega) hc) (by omega)
  · rw [storedCount_vectorImage himage, length_ends]
  · rw [storedCount_vectorImage himage]
    exact storedAt_vectorImage himage
  · rw [storedCount_vectorImage himage, length_vectorImage]
    exact ascends_ends _ _

theorem consistent_dict {key value : Layout} {keyLength : Nat} (hkey : key.KeepsLength)
    (hvalue : value.KeepsLength) (u : Unsupplied) (v : Value) (hsmall : b.length < 2 ^ 32)
    (hroom : dictOverhead keyLength 0 ≤ b.length) :
    0 < (write u (.dict key keyLength value) v b).length
      ∧ Consistent (.dict key keyLength value) v b.length
        (write u (.dict key keyLength value) v b) := by
  have hkeys := length_putKey hkey keyLength
  have hle := (keeps_writeDict (encodedLength value) hvalue.encodeOver hkeys v.fields b).2
  rw [write_dict]
  obtain ⟨count, hcount⟩ : ∃ count, dictCount keyLength v.fields.length b.length = count :=
    ⟨_, rfl⟩
  have hcountLe : count ≤ v.fields.length := hcount ▸ dictCount_le _ _ _
  have hoverhead : dictOverhead keyLength count ≤ b.length :=
    hcount ▸ dictOverhead_dictCount_le _ hroom
  have htaken : (v.fields.take count).length = count := by
    rw [List.length_take, Nat.min_eq_left hcountLe]
  have hentries : v.fields.take (dictCount keyLength v.fields.length b.length)
      = v.fields.take count := by rw [hcount]
  have hwrite := writeDict_eq (encodedLength value) hvalue.encodeOver hkeys hroom hentries
  have htakenRoom : dictOverhead keyLength (v.fields.take count).length ≤ b.length := by
    rw [htaken]
    exact hoverhead
  have hall := length_of_mem_placeKeys (encodedLength value) (encodeOver value) hkeys htakenRoom
  have hvalues : (placeValues keyLength (encodedLength value) (encodeOver value)
      (v.fields.take count) b).1.length = count := by
    rw [length_placeValues_fst, htaken]
  have hmany : (placeKeys keyLength (putKey key) (encodedLength value) (encodeOver value)
      (v.fields.take count) b).length = count := by
    rw [length_placeKeys, htaken]
  -- from here on it only matters how many chunks and keys there are, and how long
  generalize (placeValues keyLength (encodedLength value) (encodeOver value)
    (v.fields.take count) b).1 = chunks at hwrite hvalues
  generalize placeKeys keyLength (putKey key) (encodedLength value) (encodeOver value)
    (v.fields.take count) b = keys at hwrite hall hmany
  rw [hwrite] at hle ⊢
  have himage : (dictImage chunks keys).length < 2 ^ 32 := lt_of_le_of_lt hle hsmall
  have hvector := vectorImage_lt_of_dictImage himage
  have hsame : keys.length = chunks.length := by rw [hmany, hvalues]
  refine ⟨?_, usedLength_dictImage key value himage hsame hall, ?_,
    ends (headerLength chunks.length) chunks, (vectorImage chunks).length, ?_, ?_, ?_, ?_, ?_⟩
  · show 0 < (dictImage chunks keys).length
    rw [length_dictImage, Word.width]
    omega
  · rw [storedCount_dictImage himage, hvalues]
    refine ⟨⟨hcountLe, hoverhead⟩, ?_⟩
    -- one more entry would not fit, even without its value
    rintro c ⟨hc, hfits⟩
    by_contra hlt
    exact absurd (room_lt_dictOverhead hroom (by omega) hc) (by omega)
  · rw [storedCount_dictImage himage, length_ends]
  · rw [storedCount_dictImage himage]
    dsimp only
    rw [dictImage_append]
    exact storedAt_vectorImage hvector
  · rw [storedCount_dictImage himage, length_vectorImage]
    exact ascends_ends _ _
  · have hword : (vectorImage chunks).length + Word.width < 2 ^ 32 := by
      rw [length_dictImage] at himage
      omega
    dsimp only
    rw [dictImage_append, List.append_assoc, ← List.append_assoc, storedOffset?,
      Word.read?_middle rfl, Option.map_some, Word.toNat_ofLength hword]
  · rw [storedCount_dictImage himage, length_dictImage, length_flatten_of_length_eq hall, hsame]

theorem consistent_map {fields : List (Field Layout)} (harranged : Arranged 0 0 fields)
    (hparts : ∀ f ∈ fields, f.layout.KeepsLength) (u : Unsupplied) (v : Value)
    (hsmall : b.length < 2 ^ 32) (hroom : dataStart fields ≤ b.length) :
    0 < (write u (.map fields) v b).length
      ∧ Consistent (.map fields) v b.length (write u (.map fields) v b) := by
  have hregion := le_trans (fixedRegion_le_dataStart fields) hroom
  have hsum := length_mapImage_place (u := u) (v := v) hparts hroom
  have hfixed := length_fixedBytes (u := u) (v := v) hparts hregion
  have hwrite := write_map (u := u) (v := v) harranged hparts hroom rfl
  generalize hp : place (optionalParts fields v) (b.drop (dataStart fields)) = p at hsum hwrite
  have hcount : p.1.length = optionalCount fields := by
    rw [← hp, length_place_fst, length_optionalParts]
  rw [hwrite]
  have himage : (mapImage (fixedBytes u fields v b) p.1).length < 2 ^ 32 := by omega
  refine ⟨?_, usedLength_mapImage hfixed hcount himage,
    mapHeader_mapImage harranged hfixed hcount himage⟩
  show 0 < (mapImage (fixedBytes u fields v b) p.1).length
  rw [length_mapImage, optionalStart, Word.width]
  omega

/-- **Truncation.**  Whatever the byte string that a vector, a dict or a map is written to, no more
is taken of it than there is, nothing is taken only where it is shorter than the smallest header,
and otherwise the header that is written is consistent. -/
theorem encode_truncated {layout : Layout} (hlayout : layout.IsCompiled) {smallest : Nat}
    (hsmallest : layout.smallest? = some smallest) (v : Value) (b : Bytes)
    (hsmall : b.length < 2 ^ 32) :
    (encode layout v b).bytes.length = b.length
      ∧ (encode layout v b).length ≤ b.length
      ∧ ((encode layout v b).length = 0 ↔ b.length < smallest)
      ∧ (0 < (encode layout v b).length →
        usedLength layout (encode layout v b).bytes = (encode layout v b).length
          ∧ HeaderConsistent layout v b.length (encode layout v b).bytes
            (encode layout v b).length) := by
  have hwf := hlayout.wellFormed
  obtain ⟨hbytes, hle⟩ := hwf.keepsLength.1 .cleared v b
  -- it remains to see that a header is written exactly where the smallest one fits
  suffices hwritten : (b.length < smallest → (write .cleared layout v b).length = 0)
      ∧ (smallest ≤ b.length → 0 < (write .cleared layout v b).length
        ∧ Consistent layout v b.length (write .cleared layout v b)) by
    obtain ⟨hshort, hlong⟩ := hwritten
    refine ⟨hbytes, hle, ⟨?_, hshort⟩, ?_⟩
    · intro hzero
      by_contra hroom
      have hpos := (hlong (by omega)).1
      unfold encode at hzero
      omega
    · intro hpos
      have hroom : smallest ≤ b.length := by
        by_contra hlt
        have hzero := hshort (by omega)
        unfold encode at hpos
        omega
      exact (hlong hroom).2
  cases hwf with
  | vector limit hitem =>
    cases hsmallest
    refine ⟨fun hshort => ?_, consistent_vector hitem.keepsLength .cleared limit v hsmall⟩
    rw [write_vector, writeVector, if_pos (show b.length < headerLength 0 from hshort)]
    rfl
  | @dict key value keyLength hkey hlength hvalue =>
    have hzero : dictOverhead keyLength 0 = 12 := by
      rw [dictOverhead, Nat.zero_mul]
      rfl
    cases hsmallest
    rw [← hzero]
    refine ⟨fun hshort => ?_,
      consistent_dict hkey.keepsLength hvalue.keepsLength .cleared v hsmall⟩
    rw [write_dict, writeDict, if_pos hshort]
    rfl
  | map hparts harranged hnames =>
    cases hsmallest
    refine ⟨fun hshort => ?_, consistent_map harranged
      (fun f hf => (hparts f hf).keepsLength) .cleared v hsmall⟩
    rw [write, if_pos hshort]
    rfl
  | _ => cases hsmallest

/-- A dict of two numbers in thirty bytes, which have room for one of the numbers only. -/
theorem encode_truncated_twoAges :
    let layout : Layout := .dict (.text (some 3)) 3 (.primitive .int32)
    let w := encode layout (.record [("ada", .int 36), ("bob", .int 41)]) (zeros 30)
    w.length = 30 ∧ usedLength layout w.bytes = w.length
      ∧ HeaderConsistent layout (.record [("ada", .int 36), ("bob", .int 41)]) 30 w.bytes
        w.length := by
  have hcompiled : IsCompiled (.dict (.text (some 3)) 3 (.primitive .int32)) :=
    .of_eval ⟨0⟩ (.object [("type", .text "object"), ("btype", .text "dict"),
      ("propertyNames", .object [("type", .text "string"), ("maxLength", .number (.natural 3))]),
      ("additionalProperties", .object [("type", .text "integer")])]) (by cbv)
  obtain ⟨-, -, -, hheader⟩ := encode_truncated hcompiled rfl
    (.record [("ada", .int 36), ("bob", .int 41)]) (zeros 30) (by decide)
  exact ⟨by decide, hheader (by decide)⟩

end Layout

end BinarySchema
