/-
# What is read of a slot

A slot is not cleared before a value is written to it over the defaults of its layout, and where an
array is cut off in the middle of an item, bytes that were there before even count as written.  They
are never read: what a value reads as depends on the value and on the size of its slot
(`WellFormed.readsAnew`).

So a part of a vector, dict or map reads as it does by itself (`wholeValue?`) wherever it is placed,
or it is a hole; and it is a hole only if it would have reached beyond the room there is, from where
it begins (`chunkValue?_place`).
-/
import BinarySchema.Proofs.RoundTrip
import BinarySchema.Proofs.Sizing

namespace BinarySchema

/-- What is read of a part does not depend on the bytes of its slot. -/
def Part.ReadsAnew (p : Part) (layout : Layout) : Prop :=
  ∀ s t : Bytes, s.length = p.need → t.length = p.need →
    (p.put s).value.length = (p.put t).value.length
      ∧ layout.decode (p.put s).value = layout.decode (p.put t).value

namespace Layout

variable {layout item : Layout} {v : Value} {b c chunk : Bytes} {fields : List (Field Layout)}
  {part : Option Part} {parts : List (Option Part)}

/-! ## Chunks -/

/-- What a chunk decodes to, if it is no hole. -/
def chunkValue? (layout : Layout) (chunk : Bytes) : Option Value :=
  if chunk.length = 0 then none else some (decode layout chunk)

theorem chunkValue_eq (item : Layout) (chunk : Bytes) :
    chunkValue item chunk = (chunkValue? item chunk).getD .null := by
  rw [chunkValue, chunkValue?]
  split_ifs <;> rfl

theorem chunkValue?_of_length_eq_zero (h : chunk.length = 0) : chunkValue? layout chunk = none :=
  if_pos h

/-- The chunk that a part becomes in a slot of zeros. -/
def wholeChunk (part : Option Part) : Bytes := part.elim [] fun p => (p.put (zeros p.need)).value

/-- What a part reads as by itself. -/
def wholeValue? (layout : Layout) (part : Option Part) : Option Value :=
  chunkValue? layout (wholeChunk part)

/-- A part that is not left out reads as it does by itself. -/
theorem chunkValue?_of_isFullChunk (hchunk : IsFullChunk part chunk)
    (hreads : ∀ p, part = some p → p.ReadsAnew layout) :
    chunkValue? layout chunk = wholeValue? layout part := by
  cases part with
  | none =>
    have hempty : chunk = [] := hchunk
    rw [hempty]
    rfl
  | some p =>
    obtain ⟨slot, hslot, rfl⟩ := hchunk
    obtain ⟨hlength, hdecode⟩ := hreads p rfl slot (zeros p.need) hslot (length_zeros _)
    rw [wholeValue?, wholeChunk, Option.elim_some, chunkValue?, chunkValue?, hlength, hdecode]

/-! ## Placing -/

/-- **Kept parts.**  Each part is placed in full, or it is a hole because it would reach beyond the
room, counted from where the chunks begin. -/
theorem place_kept (hkeep : AllKeep parts) (start : Nat) (b : Bytes) {i : Nat}
    (hi : i < parts.length) (hi' : i < (place parts b).1.length) :
    IsFullChunk parts[i] (place parts b).1[i] ∧ need parts[i] ≤ b.length
      ∨ (place parts b).1[i] = []
        ∧ start + b.length < runStart start (place parts b).1 i + need parts[i] := by
  induction parts generalizing start b i with
  | nil => exact absurd hi (Nat.not_lt_zero i)
  | cons part parts ih =>
    obtain ⟨hsum, -⟩ := length_placeOne hkeep.head b
    unfold place at hi' ⊢
    dsimp only at hi' ⊢
    cases i with
    | zero =>
      rw [List.getElem_cons_zero, List.getElem_cons_zero, runStart_zero]
      rcases le_or_gt (need part) b.length with hfits | hlong
      · exact Or.inl ⟨placeOne_full hfits, hfits⟩
      · refine Or.inr ⟨?_, Nat.add_lt_add_left hlong start⟩
        cases part with
        | none => rfl
        | some p => rw [placeOne_of_lt hlong]
    | succ i =>
      -- the others have the room that the first one leaves
      have hothers := ih hkeep.tail (start + (placeOne part b).1.length) (placeOne part b).2
        (Nat.lt_of_succ_lt_succ hi) (Nat.lt_of_succ_lt_succ hi')
      rw [List.getElem_cons_succ, List.getElem_cons_succ, runStart_cons_succ]
      rcases hothers with ⟨hfull, hfits⟩ | ⟨hempty, hlong⟩
      · exact Or.inl ⟨hfull, by omega⟩
      · exact Or.inr ⟨hempty, by omega⟩

/-- So it reads as it does by itself, or as a hole. -/
theorem chunkValue?_place (layout : Layout) (hkeep : AllKeep parts) (start : Nat)
    (hsmall : b.length < 2 ^ 32) {i : Nat} (hi : i < parts.length) (hi' : i < (place parts b).1.length)
    (hreads : ∀ p, parts[i] = some p → p.need < 2 ^ 32 → p.ReadsAnew layout) :
    chunkValue? layout (place parts b).1[i] = wholeValue? layout parts[i]
      ∨ (place parts b).1[i] = []
        ∧ start + b.length < runStart start (place parts b).1 i + need parts[i] := by
  refine (place_kept hkeep start b hi hi').imp_left fun ⟨hfull, hfits⟩ => ?_
  apply chunkValue?_of_isFullChunk hfull
  intro p hp
  rw [hp, need_some] at hfits
  exact hreads p hp (by omega)

/-- Where there is room for all parts, each reads as it does by itself. -/
theorem chunkValue?_place_full (layout : Layout) (hkeep : AllKeep parts)
    (hroom : needs parts ≤ b.length) (hsmall : b.length < 2 ^ 32) {i : Nat} (hi : i < parts.length)
    (hi' : i < (place parts b).1.length)
    (hreads : ∀ p, parts[i] = some p → p.need < 2 ^ 32 → p.ReadsAnew layout) :
    chunkValue? layout (place parts b).1[i] = wholeValue? layout parts[i] := by
  have hfull := (place_full hkeep hroom).get hi hi'
  rw [List.get_eq_getElem, List.get_eq_getElem] at hfull
  apply chunkValue?_of_isFullChunk hfull
  intro p hp
  have hle : need parts[i] ≤ needs parts :=
    List.single_le_sum (fun _ _ => Nat.zero_le _) _ (List.mem_map_of_mem (List.getElem_mem hi))
  rw [hp, need_some] at hle
  exact hreads p hp (by omega)

/-- In byte strings of one length, parts read alike. -/
theorem chunkValue?_place_congr (hkeep : AllKeep parts)
    (hcounts : ∀ part ∈ parts, ∀ p, part = some p → CountsLength p.put)
    (h : b.length = c.length) (hsmall : b.length < 2 ^ 32) {i : Nat} (hi : i < parts.length)
    (hb : i < (place parts b).1.length) (hc : i < (place parts c).1.length)
    (hreads : ∀ p, parts[i] = some p → p.need < 2 ^ 32 → p.ReadsAnew layout) :
    chunkValue? layout (place parts b).1[i] = chunkValue? layout (place parts c).1[i] := by
  have hlength := length_getElem_congr (map_length_place_congr hkeep hcounts h) hb hc
  -- chunks of one length are holes together
  rcases chunkValue?_place layout hkeep 0 hsmall hi hb hreads with hwhole | ⟨hempty, -⟩
  · rcases chunkValue?_place layout hkeep 0 (h ▸ hsmall) hi hc hreads with hwhole' | ⟨hempty', -⟩
    · rw [hwhole, hwhole']
    · rw [chunkValue?_of_length_eq_zero (by rw [hlength, hempty', List.length_nil]), hempty',
        chunkValue?_of_length_eq_zero List.length_nil]
  · rw [hempty, chunkValue?_of_length_eq_zero List.length_nil,
      chunkValue?_of_length_eq_zero (by rw [← hlength, hempty, List.length_nil])]

/-! ## What is written to any byte string -/

/-- Nothing is written to a byte string that is too short for anything. -/
theorem value_encodeOver_of_lt (hkeep : layout.KeepsLength) (h : b.length < leastLength layout) :
    (encodeOver layout v b).value = [] := by
  rw [encodeOver, amend, write_of_lt (by rw [hkeep.2]; exact h)]
  rfl

/-- The items of a vector that a table in `n` bytes has entries for. -/
def keptItems (limit : Option Nat) (v : Value) (n : Nat) : List Value :=
  (admitted limit v.items).take (vectorCount (admitted limit v.items).length n)

/-- An item of a vector or a value of a dict as a part. -/
def itemPart (item : Layout) (i : Value) : Option Part :=
  if i.isNull then none else some ⟨encodedLength item i, encodeOver item i⟩

theorem length_keptItems (limit : Option Nat) (v : Value) (n : Nat) :
    (keptItems limit v n).length = vectorCount (admitted limit v.items).length n := by
  rw [keptItems, List.length_take, Nat.min_eq_left (vectorCount_le _ _)]

/-- Where the table has room for all items, it has entries for all. -/
theorem keptItems_of_le {limit : Option Nat} {n : Nat}
    (h : headerLength (admitted limit v.items).length ≤ n) :
    keptItems limit v n = admitted limit v.items := by
  rw [keptItems, vectorCount_eq h, List.take_length]

/-- A vector is the image of the items that the table has entries for, as they are placed. -/
theorem encodeOver_vector (hkeep : item.KeepsLength) (limit : Option Nat) (v : Value)
    (hroom : headerLength 0 ≤ b.length) {p : List Bytes × Bytes}
    (hp : place ((keptItems limit v b.length).map (itemPart item))
      (b.drop (headerLength (keptItems limit v b.length).length)) = p) :
    encodeOver (.vector item limit) v b
      = ⟨vectorImage p.1 ++ p.2, (vectorImage p.1).length⟩ := by
  rw [length_keptItems] at hp
  rw [encodeOver, amend, seed_of_fixedLength_eq_none rfl rfl, write_vector]
  exact writeVector_eq _ hroom rfl (allKeep_itemParts hkeep.encodeOver (encodedLength item) _) hp

/-- The entries of a dict that `n` bytes have room for, apart from their values. -/
def keptEntries (keyLength : Nat) (v : Value) (n : Nat) : List (String × Value) :=
  v.fields.take (dictCount keyLength v.fields.length n)

theorem length_keptEntries (keyLength : Nat) (v : Value) (n : Nat) :
    (keptEntries keyLength v n).length = dictCount keyLength v.fields.length n := by
  rw [keptEntries, List.length_take, Nat.min_eq_left (dictCount_le _ _ _)]

theorem dictOverhead_keptEntries_le {keyLength : Nat} (v : Value) {n : Nat}
    (h : dictOverhead keyLength 0 ≤ n) :
    dictOverhead keyLength (keptEntries keyLength v n).length ≤ n := by
  rw [length_keptEntries]
  exact dictOverhead_dictCount_le _ h

theorem keptEntries_of_le {keyLength n : Nat} (h : dictOverhead keyLength v.fields.length ≤ n) :
    keptEntries keyLength v n = v.fields := by
  rw [keptEntries, dictCount_eq h, List.take_length]

section Dict

variable {key value : Layout} {keyLength : Nat}

/-- The bytes of a key of a dict. -/
def keyBytes (key : Layout) (keyLength : Nat) (name : String) : Bytes :=
  putKey key name (zeros keyLength)

theorem length_keyBytes (hkey : key.KeepsLength) (name : String) :
    (keyBytes key keyLength name).length = keyLength :=
  length_putKey hkey keyLength name _ (length_zeros _)

/-- The keys of a dict are written to slots of their own. -/
theorem placeKeys_eq (hkey : key.WellFormed) (hlength : key.fixedLength? = some keyLength)
    (size : Value → Nat) (put : Value → Bytes → Written) {entries : List (String × Value)}
    (hroom : dictOverhead keyLength entries.length ≤ b.length) :
    placeKeys keyLength (putKey key) size put entries b
      = entries.map fun e => keyBytes key keyLength e.1 := by
  have hslots : (entries.map fun e => putKey key e.1).length * keyLength
      ≤ (keyRoom keyLength size put entries b).length := by
    rw [List.length_map, length_keyRoom size put hroom]
    exact Nat.le_add_left _ _
  have hspec := rewriteSlots_spec hslots
  rw [List.forall₂_map_left_iff] at hspec
  rw [placeKeys, ← List.map_id (rewriteSlots _ _ _)]
  refine map_eq_map_of_forall₂ hspec ?_
  rintro e - new ⟨slot, hslot, rfl⟩
  exact putKey_congr hkey hlength e.1 slot (zeros keyLength) hslot (length_zeros _)

/-- A dict is the image of its entries, with those values that are placed. -/
theorem exists_encodeOver_dict (hkey : key.WellFormed) (hlength : key.fixedLength? = some keyLength)
    (hvalue : value.KeepsLength) (v : Value) (hroom : dictOverhead keyLength 0 ≤ b.length)
    {p : List Bytes × Bytes}
    (hp : place (((keptEntries keyLength v b.length).map (·.2)).map (itemPart value))
      ((b.take (valueRoom keyLength (keptEntries keyLength v b.length).length b)).drop
        (headerLength (keptEntries keyLength v b.length).length)) = p) :
    ∃ rest, encodeOver (.dict key keyLength value) v b
      = ⟨dictImage p.1 ((keptEntries keyLength v b.length).map fun e => keyBytes key keyLength e.1)
          ++ rest,
        (dictImage p.1
          ((keptEntries keyLength v b.length).map fun e => keyBytes key keyLength e.1)).length⟩ := by
  have hvalues : placeValues keyLength (encodedLength value) (encodeOver value)
      (keptEntries keyLength v b.length) b = p := hp
  have hwrite := writeDict_eq (encodedLength value) hvalue.encodeOver
    (length_putKey hkey.keepsLength keyLength) hroom
    (show v.fields.take _ = keptEntries keyLength v b.length from rfl)
  rw [hvalues, placeKeys_eq hkey hlength _ _ (dictOverhead_keptEntries_le v hroom)] at hwrite
  rw [encodeOver, amend, seed_of_fixedLength_eq_none rfl rfl, write_dict, hwrite]
  exact ⟨_, rfl⟩

end Dict

/-- A map is the image of its fixed region, over the defaults, and of those optional fields that are
placed. -/
theorem encodeOver_map (harranged : Arranged 0 0 fields)
    (hparts : ∀ f ∈ fields, f.layout.KeepsLength) (v : Value) (hroom : dataStart fields ≤ b.length)
    {p : List Bytes × Bytes}
    (hp : place (optionalParts fields v) (b.drop (dataStart fields)) = p) :
    encodeOver (.map fields) v b
      = ⟨mapImage (writeFixed fields v (template fields)) p.1 ++ p.2,
        (mapImage (writeFixed fields v (template fields)) p.1).length⟩ := by
  have hregion := fixedRegion_le_dataStart fields
  have hseed : (seed (.map fields) b).length = b.length := (keepsLength_map harranged hparts).2 b
  rw [← drop_seed_map hparts hregion (le_trans hregion hroom)] at hp
  rw [encodeOver, amend, write_map harranged hparts (by rw [hseed]; exact hroom) hp,
    fixedBytes_seed hparts (le_trans hregion hroom)]

/-! ## Arrays -/

section Array

variable {stride capacity : Nat}

/-- An array is read from its whole slots. -/
theorem decode_array_congr (item : Layout)
    (hcount : slotCount stride capacity b = slotCount stride capacity c)
    (h : b.take (slotCount stride capacity b * stride)
      = c.take (slotCount stride capacity b * stride)) :
    decode (.array item stride capacity) b = decode (.array item stride capacity) c := by
  -- what is behind the whole slots is not looked at
  have hslice : ∀ (d : Bytes) (n i : Nat), n * stride ≤ d.length → i < n →
      Span.slice ⟨i * stride, stride⟩ d = Span.slice ⟨i * stride, stride⟩ (d.take (n * stride)) := by
    intro d n i hd hi
    have hmul : (i + 1) * stride ≤ n * stride := Nat.mul_le_mul_right _ hi
    have hfits : (⟨i * stride, stride⟩ : Span).Fits (d.take (n * stride)) := by
      rw [Nat.succ_mul] at hmul
      rw [Span.Fits, Span.stop, List.length_take, Nat.min_eq_left hd]
      exact hmul
    rw [← Span.slice_append hfits (d.drop (n * stride)), List.take_append_drop]
  rw [decode_array, decode_array, ← hcount]
  congr 1
  apply List.map_congr_left
  intro i hi
  rw [List.mem_range] at hi
  rw [hslice b _ i (slotCount_mul_le stride capacity b) hi, h,
    ← hslice c _ i (hcount ▸ slotCount_mul_le stride capacity c) hi]

/-- The region of an array has all slots that there are. -/
theorem slotCount_region (h : c.length = min (capacity * stride) b.length) :
    slotCount stride capacity c = slotCount stride capacity b := by
  rw [slotCount, slotCount, h]
  split_ifs with hzero
  · rfl
  · rcases le_total (capacity * stride) b.length with hle | hle
    · have hdiv := (Nat.le_div_iff_mul_le (Nat.pos_of_ne_zero hzero)).mpr hle
      rw [Nat.min_eq_left hle, Nat.mul_div_cancel _ (Nat.pos_of_ne_zero hzero), Nat.min_self,
        Nat.min_eq_left hdiv]
    · rw [Nat.min_eq_right hle]

/-- An array that is cut off is written as one with as many slots as there are. -/
theorem encodeOver_array (hkeep : item.KeepsLength) (v : Value) (front back : Bytes) {count : Nat}
    (hcount : slotCount stride capacity (front ++ back) = count)
    (hfront : front.length = count * stride) :
    encodeOver (.array item stride capacity) v (front ++ back)
      = ⟨(encodeOver (.array item stride count) v front).bytes ++ back,
        min (capacity * stride) (front ++ back).length⟩ := by
  have hself : slotCount stride count front = count := slotCount_eq_capacity (le_of_eq hfront.symm)
  have hseed : seed (.array item stride capacity) (front ++ back)
      = seed (.array item stride count) front ++ back := by
    rw [seed, seed, hcount, hself,
      onSlots_append (by rw [List.length_replicate]; exact le_of_eq hfront.symm)]
  have hlength : (seed (.array item stride count) front).length = count * stride := by
    rw [(keepsLength_array hkeep stride count).2, hfront]
  have hregion : count * stride ≤ min (capacity * stride) (front ++ back).length := by
    refine le_min (Nat.mul_le_mul_right _ ?_) (by rw [List.length_append]; omega)
    rw [← hcount]
    exact slotCount_le _ _ _
  rw [encodeOver, amend, encodeOver, amend, hseed, write_array .kept v hlength.symm]
  generalize seed (.array item stride count) front = seeded at hlength
  -- the region goes on behind the whole slots, where it is kept
  have hbytes : (seeded ++ back).length = (front ++ back).length := by
    rw [List.length_append, List.length_append, hlength, hfront]
  have htake : (seeded ++ back).take (min (capacity * stride) (front ++ back).length)
      = seeded ++ back.take (min (capacity * stride) (front ++ back).length - seeded.length) := by
    rw [List.take_append, List.take_of_length_le (by rw [hlength]; exact hregion)]
  have hdrop : (seeded ++ back).drop (min (capacity * stride) (front ++ back).length)
      = back.drop (min (capacity * stride) (front ++ back).length - seeded.length) := by
    rw [List.drop_append, List.drop_of_length_le (by rw [hlength]; exact hregion),
      List.nil_append]
  have hslots : slotCount stride capacity
      ((seeded ++ back).take (min (capacity * stride) (front ++ back).length)) = count := by
    rw [← hcount]
    apply slotCount_region
    rw [List.length_take, hbytes]
    omega
  have hitems : ((v.items.take count).map (supplyItem .kept item)).length * stride
      ≤ seeded.length := by
    rw [List.length_map, List.length_take, hlength]
    exact Nat.mul_le_mul_right _ (Nat.min_le_left _ _)
  have hslice := onSlots_append (b := seeded)
    (c := back.take (min (capacity * stride) (front ++ back).length - seeded.length)) hitems
  rw [write]
  dsimp only
  rw [hbytes, onFront, Unsupplied.prepare, hslots, htake, hdrop, Unsupplied.prepare]
  refine congrArg (Written.mk · _) ?_
  refine (congrArg (· ++ _) hslice).trans ?_
  rw [List.append_assoc, List.take_append_drop]

/-- The whole slots of an array do not depend on what there was. -/
theorem take_value_encodeOver_array (hitem : item.WellFormed)
    (hstride : item.fixedLength? = some stride) (capacity : Nat) (v : Value) {count : Nat}
    (hcount : slotCount stride capacity b = count) :
    (encodeOver (.array item stride capacity) v b).value.length = min (capacity * stride) b.length
      ∧ (encodeOver (.array item stride capacity) v b).value.take (count * stride)
        = (encodeOver (.array item stride count) v (zeros (count * stride))).bytes := by
  obtain ⟨e, hlength, hput⟩ := ((hitem.array count hstride).fills_of_fixedLength rfl v).exists_eq
  have hroom : count * stride ≤ b.length := hcount ▸ slotCount_mul_le stride capacity b
  have hregion : count * stride ≤ min (capacity * stride) b.length :=
    le_min (Nat.mul_le_mul_right _ (hcount ▸ slotCount_le stride capacity b)) hroom
  have hfront : (b.take (count * stride)).length = count * stride := by
    rw [List.length_take, Nat.min_eq_left hroom]
  have hwrite := encodeOver_array hitem.keepsLength v (b.take (count * stride))
    (b.drop (count * stride)) (by rw [List.take_append_drop]; exact hcount) hfront
  rw [List.take_append_drop, hput _ hfront] at hwrite
  rw [hwrite, hput _ (length_zeros _), Written.value]
  dsimp only
  constructor
  · rw [List.length_take, List.length_append, List.length_drop, hlength]
    omega
  · rw [List.take_take, Nat.min_eq_left hregion]
    exact List.take_left' hlength

end Array

/-! ## All layouts -/

/-- What a value reads as does not depend on the bytes of its slot. -/
def ReadsAnew (layout : Layout) : Prop :=
  ∀ (v : Value) (b c : Bytes), b.length = c.length → b.length < 2 ^ 32 →
    decode layout (encodeOver layout v b).value = decode layout (encodeOver layout v c).value

/-- So does a part that is written over the defaults of the layout. -/
theorem ReadsAnew.readsPart (h : layout.ReadsAnew) (hwf : layout.WellFormed) {n : Nat}
    (hn : n < 2 ^ 32) (v : Value) : Part.ReadsAnew ⟨n, encodeOver layout v⟩ layout := by
  intro s t hs ht
  dsimp only at hs ht ⊢
  have hkeeps := hwf.keepsLength.encodeOver v s
  have hkeept := hwf.keepsLength.encodeOver v t
  refine ⟨?_, h v s t (hs.trans ht.symm) (by omega)⟩
  rw [Written.length_value (by omega), Written.length_value (by omega),
    hwf.length_encodeOver v (hs.trans ht.symm), ← hwf.length_encodeOver v rfl]

/-- A value of one size takes the same bytes wherever there is room for it. -/
theorem WellFormed.value_encodeOver_of_le (hwf : layout.WellFormed) {n : Nat}
    (hlayout : layout.fixedLength? = some n) (v : Value) (hb : n ≤ b.length) :
    (encodeOver layout v b).value = (encodeOver layout v (zeros n)).value := by
  have hfresh := freshLength_of_fixedLength hlayout v
  have hfront : (b.take n).length = n := by rw [List.length_take, Nat.min_eq_left hb]
  obtain ⟨e, hlength, hput⟩ := (hwf.fills_of_fixedLength hlayout v).exists_eq
  conv_lhs => rw [← List.take_append_drop n b]
  rw [encodeOver_append_of_le hwf (by rw [hfresh, hfront]), hput _ hfront,
    hput _ (length_zeros n), Written.value, Written.value]
  exact List.take_append_of_le_length (le_of_eq hlength.symm)

/-- What is cleared in full is the same whatever there was. -/
theorem WellFormed.value_encodeOver_congr (hwf : layout.WellFormed) (htable : ¬ layout.IsTable)
    {v : Value} (hclear : ∀ b, write .kept layout v b = encode layout v b)
    (h : b.length = c.length) : (encodeOver layout v b).value = (encodeOver layout v c).value := by
  obtain ⟨e, ⟨-, hput⟩, -⟩ := splices_encode_of_not_isTable hwf htable v c.length
  rw [encodeOver, encodeOver, amend, amend, hclear, hclear, hput _ ((hwf.keepsLength.2 b).trans h),
    hput _ (hwf.keepsLength.2 c), Written.value_append, Written.value_append]

theorem decode_record_congr (hfields : layout.fields? = some fields)
    (hnames : (fields.map Field.name).Nodup)
    (h : ∀ f ∈ fields, fieldValue? layout b f = fieldValue? layout c f) :
    decode layout b = decode layout c := by
  rw [decode_record hfields c]
  refine decode_record_eq hfields hnames (ordered_decodedFields layout c)
    (fun name hname => mem_names_of_mem_decodedFields hfields hnames hname) fun f hf => ?_
  rw [h f hf, lookup_decodedFields hfields hnames hf]

theorem readsAnew_array {stride : Nat} (hitem : item.WellFormed)
    (hstride : item.fixedLength? = some stride) (capacity : Nat) :
    (Layout.array item stride capacity).ReadsAnew := by
  intro v b c h hsmall
  obtain ⟨hb, htake⟩ := take_value_encodeOver_array (b := b) hitem hstride capacity v rfl
  obtain ⟨hc, htake'⟩ := take_value_encodeOver_array (b := c) hitem hstride capacity v
    (slotCount_congr h.symm)
  have hslots := slotCount_region hb
  apply decode_array_congr
  · rw [hslots, slotCount_region hc, slotCount_congr h]
  · rw [hslots, htake, htake']

theorem ReadsAnew.itemPart (h : item.ReadsAnew) (hwf : item.WellFormed) {i : Value} {p : Part}
    (hp : itemPart item i = some p) (hneed : p.need < 2 ^ 32) : p.ReadsAnew item := by
  rw [Layout.itemPart] at hp
  split_ifs at hp
  obtain rfl := Option.some.inj hp
  exact h.readsPart hwf hneed i

theorem ReadsAnew.optionalPart {f : Field Layout} (h : f.layout.ReadsAnew)
    (hwf : f.layout.WellFormed) {p : Part} (hp : optionalPart v f = some p)
    (hneed : p.need < 2 ^ 32) : p.ReadsAnew f.layout := by
  obtain ⟨x, -, hpart⟩ := Option.bind_eq_some_iff.mp hp
  split_ifs at hpart
  obtain rfl := Option.some.inj hpart
  exact h.readsPart hwf hneed x

theorem allKeep_map_itemPart (hkeep : item.KeepsLength) (items : List Value) :
    AllKeep (items.map (itemPart item)) :=
  allKeep_itemParts hkeep.encodeOver (encodedLength item) items

/-- In byte strings of one length, the items of a list read alike. -/
theorem map_chunkValue_place_congr (hitem : item.WellFormed) (hreads : item.ReadsAnew)
    (items : List Value) (h : b.length = c.length) (hsmall : b.length < 2 ^ 32) :
    (place (items.map (itemPart item)) b).1.map (chunkValue item)
      = (place (items.map (itemPart item)) c).1.map (chunkValue item) := by
  have hcounts : ∀ part ∈ items.map (itemPart item), ∀ p, part = some p → CountsLength p.put :=
    countsLength_itemParts (fun i s t hst => hitem.length_write_congr i
      (by rw [hitem.keepsLength.2, hitem.keepsLength.2, hst])) _
  apply List.ext_getElem
  · rw [List.length_map, List.length_map, length_place_fst, length_place_fst]
  · intro i hi hi'
    rw [List.length_map] at hi hi'
    rw [List.getElem_map, List.getElem_map, chunkValue_eq, chunkValue_eq]
    refine congrArg (Option.getD · Value.null) ?_
    refine chunkValue?_place_congr (allKeep_map_itemPart hitem.keepsLength items) hcounts h hsmall
      (by rwa [length_place_fst] at hi) hi hi' fun p hp hneed => ?_
    rw [List.getElem_map] at hp
    exact hreads.itemPart hitem hp hneed

theorem readsAnew_vector (hitem : item.WellFormed) (hreads : item.ReadsAnew) (limit : Option Nat) :
    (Layout.vector item limit).ReadsAnew := by
  intro v b c h hsmall
  have hkeep := (hitem.vector limit).keepsLength
  rcases Nat.lt_or_ge b.length (headerLength 0) with hshort | hroom
  · rw [value_encodeOver_of_lt hkeep hshort,
      value_encodeOver_of_lt hkeep (by rw [leastLength, ← h]; exact hshort)]
  · have hb := (hkeep.encodeOver v b).2
    have hc := (hkeep.encodeOver v c).2
    rw [encodeOver_vector hitem.keepsLength limit v hroom rfl] at hb ⊢
    rw [encodeOver_vector hitem.keepsLength limit v (h ▸ hroom) rfl, ← h] at hc ⊢
    dsimp only at hb hc
    rw [Written.value_append, Written.value_append, ← List.append_nil (vectorImage _),
      decode_vectorImage item limit (by omega),
      ← List.append_nil (vectorImage (place _ (c.drop _)).1),
      decode_vectorImage item limit (by omega)]
    refine congrArg Value.list (map_chunkValue_place_congr hitem hreads _ ?_ ?_)
    · rw [List.length_drop, List.length_drop, h]
    · rw [List.length_drop]
      omega

/-- What the name of an entry of a dict is read as. -/
def storedName (key : Layout) (keyLength : Nat) (name : String) : String :=
  keyText key (decode key (keyBytes key keyLength name))

/-- A dict that is written to any byte string reads as its entries that were kept, with those values
that were placed. -/
theorem decode_dictImage_entries {key value : Layout} {keyLength : Nat} (hkey : key.KeepsLength)
    {entries : List (String × Value)} {chunks : List Bytes} (hcount : chunks.length = entries.length)
    (rest : Bytes)
    (hsmall : (dictImage chunks (entries.map fun e => keyBytes key keyLength e.1)).length < 2 ^ 32) :
    decode (.dict key keyLength value)
        (dictImage chunks (entries.map fun e => keyBytes key keyLength e.1) ++ rest)
      = .record (Value.setNew ((entries.map fun e => storedName key keyLength e.1).zip
          (chunks.map (chunkValue value))) []) := by
  rw [decode_dictImage key value hsmall (by rw [List.length_map, hcount]), List.map_map]
  · rfl
  · intro k hk
    obtain ⟨e, -, rfl⟩ := List.mem_map.mp hk
    exact length_keyBytes hkey e.1

theorem readsAnew_dict {key value : Layout} {keyLength : Nat} (hkey : key.WellFormed)
    (hlength : key.fixedLength? = some keyLength) (hvalue : value.WellFormed)
    (hreads : value.ReadsAnew) : (Layout.dict key keyLength value).ReadsAnew := by
  intro v b c h hsmall
  have hkeep := (hkey.dict hlength hvalue).keepsLength
  rcases Nat.lt_or_ge b.length (dictOverhead keyLength 0) with hshort | hroom
  · rw [value_encodeOver_of_lt hkeep hshort,
      value_encodeOver_of_lt hkeep (by rw [leastLength, ← h]; exact hshort)]
  · have hb := (hkeep.encodeOver v b).2
    have hc := (hkeep.encodeOver v c).2
    obtain ⟨rest, hwrite⟩ := exists_encodeOver_dict hkey hlength hvalue.keepsLength v hroom rfl
    obtain ⟨rest', hwrite'⟩ :=
      exists_encodeOver_dict hkey hlength hvalue.keepsLength v (h ▸ hroom) rfl
    rw [hwrite] at hb ⊢
    rw [hwrite', ← h] at hc ⊢
    dsimp only at hb hc
    rw [Written.value_append, Written.value_append, ← List.append_nil (dictImage _ _),
      decode_dictImage_entries hkey.keepsLength ?_ [] (by omega),
      ← List.append_nil (dictImage (place _ ((c.take _).drop _)).1 _),
      decode_dictImage_entries hkey.keepsLength ?_ [] (by omega),
      map_chunkValue_place_congr hvalue hreads]
    · simp only [List.length_drop, List.length_take, valueRoom, h]
    · simp only [List.length_drop, List.length_take]
      omega
    all_goals rw [length_place_fst, List.length_map, List.length_map]

/-- The part of an optional field is found under its number. -/
theorem Arranged.getElem_optionalParts (harranged : Arranged 0 0 fields) {f : Field Layout}
    (hf : f ∈ fields) {k : Nat} (hplace : f.place = .optional k) (v : Value)
    (hk : k < (optionalParts fields v).length) :
    (optionalParts fields v)[k] = optionalPart v f := by
  have hk' : k < (optionals fields).length := by rwa [optionalParts, List.length_map] at hk
  simp only [optionalParts, List.getElem_map, harranged.getElem_optionals hf hplace hk']

theorem readsAnew_map (hparts : ∀ f ∈ fields, f.layout.WellFormed) (harranged : Arranged 0 0 fields)
    (hnames : (fields.map Field.name).Nodup) (hreads : ∀ f ∈ fields, f.layout.ReadsAnew) :
    (Layout.map fields).ReadsAnew := by
  intro v b c h hsmall
  have hkeeps : ∀ f ∈ fields, f.layout.KeepsLength := fun f hf => (hparts f hf).keepsLength
  have hkeep := keepsLength_map harranged hkeeps
  rcases Nat.lt_or_ge b.length (dataStart fields) with hshort | hroom
  · rw [value_encodeOver_of_lt hkeep hshort,
      value_encodeOver_of_lt hkeep (by rw [leastLength, ← h]; exact hshort)]
  · have hb := (hkeep.encodeOver v b).2
    have hc := (hkeep.encodeOver v c).2
    have hfixed : (writeFixed fields v (template fields)).length = fixedRegion fields := by
      rw [length_writeFixed hkeeps, length_template hkeeps]
    have hcounts := countsLength_optionalParts (fun f hf => CountsLength.encodeOver (hkeeps f hf)
      fun x s t hst => (hparts f hf).length_write_congr x hst) v
    rw [encodeOver_map harranged hkeeps v hroom rfl] at hb ⊢
    rw [encodeOver_map harranged hkeeps v (h ▸ hroom) rfl] at hc ⊢
    dsimp only at hb hc
    rw [Written.value_append, Written.value_append]
    apply decode_record_congr rfl hnames
    intro f hf
    rw [← List.append_nil (mapImage _ _), ← List.append_nil (mapImage _ (place _ (c.drop _)).1)]
    cases hplace : f.place with
    | fixed span =>
      rw [fieldValue?_mapImage_fixed hfixed hf hplace, fieldValue?_mapImage_fixed hfixed hf hplace]
    | optional k =>
      have hk : k < (optionalParts fields v).length := by
        rw [length_optionalParts]
        exact harranged.ordinal_lt hf hplace
      have hcount := length_place_optionalParts fields v
      have hkb := hk.trans_eq (length_place_fst _ (b.drop (dataStart fields))).symm
      have hkc := hk.trans_eq (length_place_fst _ (c.drop (dataStart fields))).symm
      rw [fieldValue?_mapImage_optional hfixed (hcount _) (by omega) hplace hkb,
        fieldValue?_mapImage_optional hfixed (hcount _) (by omega) hplace hkc]
      refine chunkValue?_place_congr (allKeep_optionalParts hkeeps v) hcounts
        (by rw [List.length_drop, List.length_drop, h]) (by rw [List.length_drop]; omega) hk hkb hkc
        fun p hp hneed => ?_
      rw [harranged.getElem_optionalParts hf hplace v hk] at hp
      exact (hreads f hf).optionalPart (hparts f hf) hp hneed

/-- **Slots.**  What a value reads as that is written over the defaults of its layout depends on the
number of bytes of its slot, but not on what these were. -/
theorem WellFormed.readsAnew (hwf : layout.WellFormed) : layout.ReadsAnew := by
  induction hwf with
  | array capacity hitem hstride ih => exact readsAnew_array hitem hstride capacity
  | vector limit hitem ih => exact readsAnew_vector hitem ih limit
  | dict hkey hlength hvalue ihkey ihvalue => exact readsAnew_dict hkey hlength hvalue ihvalue
  | map hparts harranged hnames ih => exact readsAnew_map hparts harranged hnames ih
  | @object fields hparts harranged hfixed hnames ih =>
    intro v b c h hsmall
    have hwf := WellFormed.object hparts harranged hfixed hnames
    rcases Nat.lt_or_ge b.length (fixedRegion fields) with hshort | hroom
    · rw [value_encodeOver_of_lt hwf.keepsLength hshort,
        value_encodeOver_of_lt hwf.keepsLength (by rw [leastLength, ← h]; exact hshort)]
    · rw [hwf.value_encodeOver_of_le rfl v hroom,
        hwf.value_encodeOver_of_le (b := c) rfl v (by rw [← h]; exact hroom)]
  | primitive p =>
    intro v b c h hsmall
    rw [(WellFormed.primitive p).value_encodeOver_congr id
      (fun d => by rw [encode, write, write]) h]
  | text cap =>
    intro v b c h hsmall
    rw [(WellFormed.text cap).value_encodeOver_congr id (fun d => by rw [encode, write, write]) h]
  | blob cap =>
    intro v b c h hsmall
    rw [(WellFormed.blob cap).value_encodeOver_congr id (fun d => by rw [encode, write, write]) h]
  | packed p capacity =>
    intro v b c h hsmall
    rw [(WellFormed.packed p capacity).value_encodeOver_congr id
      (fun d => by rw [encode, write, write]) h]

end Layout

end BinarySchema
