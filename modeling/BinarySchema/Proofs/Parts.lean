/-
# Rewriting one part of a value

The parts of a value are numbered: the fields of a record, the items of a list and the values of a
dict (`partSpan?`).  In a sound byte string each part has bytes of its own.  When they are rewritten
by as many others, the byte string stays sound, and nothing but that part changes
(`Sound.rewritable`): the number of parts, their places, the keys, the used length and the bytes of
all other parts stay.
-/
import BinarySchema.Layout.Search
import BinarySchema.Proofs.Access
import BinarySchema.Proofs.Sound

namespace BinarySchema

namespace Layout

variable {layout part : Layout} {b c new : Bytes} {i j : Nat} {span : Span}
  {fields : List (Field Layout)} {chunks keys : List Bytes}

/-! ## Parts by number -/

/-- The layout and the span of a part, by its number: of a field of a record, of an item of a list,
or of a value of a dict. -/
def partSpan? (layout : Layout) (b : Bytes) (i : Nat) : Option (Layout × Span) :=
  match layout.fields? with
  | some _ => fieldSpan? layout b i
  | none => itemSpan? layout b i

/-- The bytes of the keys of a dict, in order. -/
def storedKeys (layout : Layout) (b : Bytes) : List Bytes :=
  match layout with
  | .dict _ keyLength _ =>
    (List.range (keyCount keyLength b)).map fun i => (keySpan keyLength b i).slice b
  | _ => []

/-- The number of the entry of a dict under a key. -/
def entryIndex? (layout : Layout) (b : Bytes) (k : Value) : Option Nat :=
  match layout with
  | .dict key keyLength _ => keyIndex? key keyLength b k 0
  | _ => none

/-- One byte string is the other one with at most the part of the given number rewritten. -/
structure SameBut (layout : Layout) (i : Nat) (b c : Bytes) : Prop where
  /-- The number of bytes is the same. -/
  length : c.length = b.length
  /-- The number of items or entries is the same. -/
  count : itemCount layout c = itemCount layout b
  /-- The used length is the same. -/
  used : usedLength layout c = usedLength layout b
  /-- All parts have the same places. -/
  place : ∀ j, partSpan? layout c j = partSpan? layout b j
  /-- All keys are the same. -/
  keys : storedKeys layout c = storedKeys layout b
  /-- All other parts have the same bytes. -/
  other : ∀ j part span, j ≠ i → partSpan? layout b j = some (part, span) →
    span.slice c = span.slice b

/-- The span is that of a sound part, which may be rewritten without touching any other one. -/
structure Rewritable (layout : Layout) (b : Bytes) (i : Nat) (part : Layout) (span : Span) :
    Prop where
  /-- The part is complete. -/
  fits : span.Fits b
  /-- The part is sound. -/
  sound : Sound part (span.slice b)
  /-- Sound bytes keep the whole sound, and nothing else changes. -/
  splice : ∀ new, new.length = span.length → Sound part new →
    Sound layout (span.splice b new) ∧ SameBut layout i b (span.splice b new)

/-- The places of all other parts are disjoint from the span. -/
def Apart (layout : Layout) (b : Bytes) (i : Nat) (span : Span) : Prop :=
  ∀ j part t, j ≠ i → partSpan? layout b j = some (part, t) →
    t.stop ≤ span.start ∨ span.stop ≤ t.start

/-- The other parts have the same bytes where they are apart from what is rewritten. -/
theorem Apart.other (h : Apart layout b i span) (hfits : span.Fits b)
    (hnew : new.length = span.length) :
    ∀ j part t, j ≠ i → partSpan? layout b j = some (part, t) →
      t.slice (span.splice b new) = t.slice b := by
  intro j part t hne ht
  exact Span.slice_splice_of_disjoint hfits hnew (h j part t hne ht)

/-! ## Arrays and objects -/

/-- Without a table, places depend on the number of bytes only. -/
theorem partSpan?_of_length_eq (htable : ¬ layout.IsTable) (h : c.length = b.length) (j : Nat) :
    partSpan? layout c j = partSpan? layout b j := by
  cases layout with
  | array item stride capacity =>
    show (slotSpan? stride capacity c j).map _ = (slotSpan? stride capacity b j).map _
    rw [slotSpan?, slotSpan?, slotCount, slotCount, h]
  | packed p capacity =>
    show (packedSpan? p capacity c j).map _ = (packedSpan? p capacity b j).map _
    rw [packedSpan?, packedSpan?, slotCount, slotCount, h]
  | vector item limit => exact absurd True.intro htable
  | dict key keyLength value => exact absurd True.intro htable
  | map fields => exact absurd True.intro htable
  | _ => rfl

theorem itemCount_of_length_eq (htable : ¬ layout.IsTable) (h : c.length = b.length) :
    itemCount layout c = itemCount layout b := by
  cases layout with
  | array item stride capacity => rw [itemCount, itemCount, slotCount, slotCount, h]
  | packed p capacity => rw [itemCount, itemCount, slotCount, slotCount, h]
  | vector item limit => exact absurd True.intro htable
  | dict key keyLength value => exact absurd True.intro htable
  | _ => rfl

theorem usedLength_of_length_eq (htable : ¬ layout.IsTable) (h : c.length = b.length) :
    usedLength layout c = usedLength layout b := by
  cases layout with
  | vector item limit => exact absurd True.intro htable
  | dict key keyLength value => exact absurd True.intro htable
  | map fields => exact absurd True.intro htable
  | _ => simp only [usedLength, h]

/-- Without a table, every part that has a place of its own may be rewritten. -/
theorem rewritable_of_apart (h : Sound layout b) (htable : ¬ layout.IsTable) (hfits : span.Fits b)
    (hsound : Sound part (span.slice b)) (hapart : Apart layout b i span) :
    Rewritable layout b i part span := by
  refine ⟨hfits, hsound, ?_⟩
  intro new hnew _
  have hlength : (span.splice b new).length = b.length := Span.length_splice_of_fits hfits hnew
  have hkeys : ∀ c, storedKeys layout c = [] := by
    intro c
    cases layout with
    | dict key keyLength value => exact absurd True.intro htable
    | _ => rfl
  refine ⟨h.of_length_eq htable hlength, hlength, itemCount_of_length_eq htable hlength,
    usedLength_of_length_eq htable hlength, partSpan?_of_length_eq htable hlength, ?_,
    hapart.other hfits hnew⟩
  rw [hkeys, hkeys]

/-- Different slots do not overlap. -/
theorem disjoint_slots (stride : Nat) (h : j ≠ i) :
    Span.stop ⟨j * stride, stride⟩ ≤ i * stride ∨ Span.stop ⟨i * stride, stride⟩ ≤ j * stride := by
  unfold Span.stop
  rcases Nat.lt_or_gt_of_ne h with hlt | hgt
  · left
    have hle := Nat.mul_le_mul_right stride hlt
    rw [Nat.succ_mul] at hle
    exact hle
  · right
    have hle := Nat.mul_le_mul_right stride hgt
    rw [Nat.succ_mul] at hle
    exact hle

theorem rewritable_array {item : Layout} {stride capacity : Nat}
    (h : Sound (.array item stride capacity) b) (hstride : item.fixedLength? = some stride)
    (hspan : partSpan? (.array item stride capacity) b i = some (part, span)) :
    Rewritable (.array item stride capacity) b i part span := by
  -- every part is one of the slots
  have hslot : ∀ j q t, partSpan? (.array item stride capacity) b j = some (q, t) →
      j < slotCount stride capacity b ∧ q = item ∧ t = ⟨j * stride, stride⟩ := by
    intro j q t ht
    have heq : partSpan? (.array item stride capacity) b j
        = (slotSpan? stride capacity b j).map (item, ·) := rfl
    rw [heq, slotSpan?] at ht
    split_ifs at ht with hj
    · cases ht
      exact ⟨hj, rfl, rfl⟩
    · cases ht
  obtain ⟨hi, rfl, rfl⟩ := hslot i part span hspan
  have hfits := fits_slot hi
  refine rewritable_of_apart h not_false hfits ?_ ?_
  · exact sound_of_fixedLength hstride (Span.length_slice_of_fits hfits)
  · intro j q t hne ht
    obtain ⟨-, -, rfl⟩ := hslot j q t ht
    exact disjoint_slots stride hne

theorem rewritable_packed {p : Primitive} {capacity : Nat} (h : Sound (.packed p capacity) b)
    (hsmall : b.length < 2 ^ 32)
    (hspan : partSpan? (.packed p capacity) b i = some (part, span)) :
    Rewritable (.packed p capacity) b i part span := by
  -- no offset of an item that is there wraps around
  have hslot : ∀ j q t, partSpan? (.packed p capacity) b j = some (q, t) →
      j < slotCount p.width capacity b ∧ q = .primitive p ∧ t = ⟨j * p.width, p.width⟩ := by
    intro j q t ht
    have heq : partSpan? (.packed p capacity) b j
        = (packedSpan? p capacity b j).map (.primitive p, ·) := rfl
    rw [heq, packedSpan?] at ht
    split_ifs at ht with hj
    · have hfits : j * p.width + p.width ≤ b.length := fits_slot hj
      have hoffset : packedOffset p j = j * p.width :=
        packedOffset_eq (lt_trans (b := 2 ^ 32) (by omega) (by decide))
      rw [hoffset] at ht
      cases ht
      exact ⟨hj, rfl, rfl⟩
    · cases ht
  obtain ⟨hi, rfl, rfl⟩ := hslot i part span hspan
  have hfits := fits_slot hi
  refine rewritable_of_apart h not_false hfits (.primitive ?_) ?_
  · exact Span.length_slice_of_fits hfits
  · intro j q t hne ht
    obtain ⟨-, -, rfl⟩ := hslot j q t ht
    exact disjoint_slots p.width hne

/-- The parts of an object are its fields at fixed places. -/
theorem partSpan?_object (ht : partSpan? (.object fields) b j = some (part, span)) :
    ∃ f, fields[j]? = some f ∧ part = f.layout ∧ f.place = .fixed span := by
  have heq : partSpan? (.object fields) b j
      = (fields[j]?).bind fun f => f.span?.bind fun span => some (f.layout, span) := rfl
  rw [heq] at ht
  obtain ⟨f, hf, hspan⟩ := Option.bind_eq_some_iff.mp ht
  obtain ⟨t, ht, hpair⟩ := Option.bind_eq_some_iff.mp hspan
  cases hpair
  refine ⟨f, hf, rfl, ?_⟩
  unfold Field.span? at ht
  cases hplace : f.place with
  | optional k =>
    rw [hplace] at ht
    cases ht
  | fixed s =>
    rw [hplace] at ht
    cases ht
    rfl

/-- Different fixed places do not overlap. -/
theorem Arranged.apart {start ordinal : Nat} (h : Arranged start ordinal fields)
    {f g : Field Layout} {s t : Span} (hf : fields[i]? = some f) (hg : fields[j]? = some g)
    (hs : f.place = .fixed s) (ht : g.place = .fixed t) (hne : j ≠ i) :
    t.stop ≤ s.start ∨ s.stop ≤ t.start := by
  rcases Nat.lt_or_gt_of_ne hne with hlt | hgt
  · exact Or.inl (h.disjoint hg hf ht hs hlt)
  · exact Or.inr (h.disjoint hf hg hs ht hgt)

theorem rewritable_object (h : Sound (.object fields) b) (harranged : Arranged 0 0 fields)
    (hspan : partSpan? (.object fields) b i = some (part, span)) :
    Rewritable (.object fields) b i part span := by
  obtain ⟨f, hf, rfl, hplace⟩ := partSpan?_object hspan
  have hmem := List.mem_of_getElem? hf
  have hfits : span.Fits b := by
    cases h with
    | object hlength =>
      rw [Span.Fits, hlength]
      exact stop_le_fixedRegion hmem hplace
  refine rewritable_of_apart h not_false hfits ?_ ?_
  · exact sound_of_fixedLength (harranged.length_eq hmem hplace) (Span.length_slice_of_fits hfits)
  · intro j q t hne ht
    obtain ⟨g, hg, -, hgplace⟩ := partSpan?_object ht
    exact harranged.apart hf hg hplace hgplace hne

/-! ## Vectors and dicts -/

/-- A part of a vector is one of its chunks. -/
theorem vectorSpan?_eq_some {rest : Bytes} (hsmall : (vectorImage chunks).length < 2 ^ 32)
    (hspan : vectorSpan? (vectorImage chunks ++ rest) i = some span) :
    ∃ hi : i < chunks.length, chunks[i] ≠ []
      ∧ span = ⟨runStart (headerLength chunks.length) chunks i, chunks[i].length⟩ := by
  rcases Nat.lt_or_ge i chunks.length with hi | hge
  · rw [vectorSpan?_vectorImage hsmall hi] at hspan
    split_ifs at hspan with hempty
    refine ⟨hi, ?_, (Option.some.inj hspan).symm⟩
    intro hnil
    exact hempty (by rw [hnil]; rfl)
  · rw [vectorSpan?_of_le hsmall hge] at hspan
    cases hspan

/-- Different parts of a vector do not overlap. -/
theorem vectorSpan?_apart {rest : Bytes} (hsmall : (vectorImage chunks).length < 2 ^ 32) {t : Span}
    (hspan : vectorSpan? (vectorImage chunks ++ rest) i = some span)
    (ht : vectorSpan? (vectorImage chunks ++ rest) j = some t) (hne : j ≠ i) :
    t.stop ≤ span.start ∨ span.stop ≤ t.start := by
  obtain ⟨hi, -, rfl⟩ := vectorSpan?_eq_some hsmall hspan
  obtain ⟨hj, -, rfl⟩ := vectorSpan?_eq_some hsmall ht
  exact disjoint_runs _ hi hj hne

/-- Chunks one of which is replaced by a sound one. -/
theorem sound_of_mem_set {item : Layout} (hchunks : ∀ chunk ∈ chunks, chunk ≠ [] → Sound item chunk)
    (hnew : Sound item new) : ∀ chunk ∈ chunks.set i new, chunk ≠ [] → Sound item chunk := by
  intro chunk hchunk hne
  rcases List.mem_or_eq_of_mem_set hchunk with hold | rfl
  · exact hchunks chunk hold hne
  · exact hnew

/-- A span of a table with the layout of its part. -/
theorem eq_of_map_pair (item : Layout) {found : Option Span}
    (h : found.map (item, ·) = some (part, span)) : part = item ∧ found = some span := by
  obtain ⟨span', hfound, heq⟩ := Option.map_eq_some_iff.mp h
  rw [Prod.mk.injEq] at heq
  exact ⟨heq.1.symm, hfound.trans (congrArg some heq.2)⟩

theorem rewritable_vector {item : Layout} {limit : Option Nat}
    (h : Sound (.vector item limit) b) (hsmall : b.length < 2 ^ 32)
    (hspan : partSpan? (.vector item limit) b i = some (part, span)) :
    Rewritable (.vector item limit) b i part span := by
  cases h with
  | @vector _ _ chunks hchunks rest =>
    have himage : (vectorImage chunks).length < 2 ^ 32 := by
      rw [List.length_append] at hsmall
      omega
    obtain ⟨rfl, hfound⟩ := eq_of_map_pair item hspan
    have hapart : Apart (.vector part limit) (vectorImage chunks ++ rest) i span := by
      intro j q t hne ht
      obtain ⟨-, ht⟩ := eq_of_map_pair part ht
      exact vectorSpan?_apart himage hfound ht hne
    have hfits := Window.vectorSpan?_fits hfound
    obtain ⟨hi, hne, rfl⟩ := vectorSpan?_eq_some himage hfound
    refine ⟨hfits, ?_, ?_⟩
    · rw [slice_vectorImage hi]
      exact hchunks _ (List.getElem_mem hi) hne
    · intro new hnew hsound
      have hother := hapart.other hfits hnew
      rw [splice_vectorImage hi hnew] at hother ⊢
      have hlengths := map_length_set hi hnew
      have hsame : (vectorImage (chunks.set i new)).length = (vectorImage chunks).length := by
        rw [length_vectorImage, length_vectorImage, length_congr hlengths,
          length_flatten_congr hlengths]
      refine ⟨.vector (sound_of_mem_set hchunks hsound) rest, ?_, ?_, ?_, ?_, rfl, hother⟩
      · rw [List.length_append, List.length_append, hsame]
      · rw [itemCount, itemCount, storedCount_vectorImage (by omega),
          storedCount_vectorImage himage, List.length_set]
      · rw [usedLength_vectorImage _ _ (by omega), usedLength_vectorImage _ _ himage, hsame]
      · intro j
        exact congrArg (Option.map (part, ·)) (vectorSpan?_congr himage hlengths j)

/-- The keys of a dict are those of its image. -/
theorem storedKeys_dictImage {key value : Layout} {keyLength : Nat} {rest : Bytes}
    (hsmall : (dictImage chunks keys).length < 2 ^ 32) (hcount : keys.length = chunks.length)
    (hkeys : ∀ key ∈ keys, key.length = keyLength) :
    storedKeys (.dict key keyLength value) (dictImage chunks keys ++ rest) = keys := by
  rw [storedKeys]
  rw [keyCount_dictImage hsmall hcount hkeys, ← hcount]
  apply List.ext_getElem
  · rw [List.length_map, List.length_range]
  · intro k hk hk'
    rw [List.getElem_map, List.getElem_range, slice_keySpan hsmall hkeys hk']

/-- Rewriting a chunk of a dict. -/
theorem splice_dictImage (hi : i < chunks.length) (hnew : new.length = chunks[i].length)
    (rest : Bytes) :
    Span.splice ⟨runStart (headerLength chunks.length) chunks i, chunks[i].length⟩
      (dictImage chunks keys ++ rest) new = dictImage (chunks.set i new) keys ++ rest := by
  have hlengths := map_length_set hi hnew
  rw [dictImage_append, splice_vectorImage hi hnew, dictImage_append, length_vectorImage,
    length_vectorImage, length_congr hlengths, length_flatten_congr hlengths]

theorem rewritable_dict {key value : Layout} {keyLength : Nat}
    (h : Sound (.dict key keyLength value) b) (hsmall : b.length < 2 ^ 32)
    (hspan : partSpan? (.dict key keyLength value) b i = some (part, span)) :
    Rewritable (.dict key keyLength value) b i part span := by
  cases h with
  | @dict _ _ _ chunks keys hcount hkeys hchunks rest =>
    have himage : (dictImage chunks keys).length < 2 ^ 32 := by
      rw [List.length_append] at hsmall
      omega
    have hvector := vectorImage_lt_of_dictImage himage
    -- the values of a dict are found as those of the vector in front of the keys
    have hspans : ∀ j, vectorSpan? (dictImage chunks keys ++ rest) j
        = vectorSpan? (vectorImage chunks ++ rest) j := by
      intro j
      rw [dictImage_append, vectorSpan?_congr hvector rfl]
    obtain ⟨rfl, hfound⟩ := eq_of_map_pair value hspan
    have hfits := Window.vectorSpan?_fits hfound
    have hapart : Apart (.dict key keyLength part) (dictImage chunks keys ++ rest) i span := by
      intro j q t hne ht
      obtain ⟨-, ht⟩ := eq_of_map_pair part ht
      rw [hspans] at hfound ht
      exact vectorSpan?_apart hvector hfound ht hne
    rw [hspans] at hfound
    obtain ⟨hi, hne, rfl⟩ := vectorSpan?_eq_some hvector hfound
    refine ⟨hfits, ?_, ?_⟩
    · rw [dictImage_append, slice_vectorImage hi]
      exact hchunks _ (List.getElem_mem hi) hne
    · intro new hnew hsound
      -- one chunk becomes another one of the same length, so the table stays as it is
      have hother := hapart.other hfits hnew
      rw [splice_dictImage hi hnew] at hother ⊢
      have hlengths := map_length_set hi hnew
      have hsame : (dictImage (chunks.set i new) keys).length = (dictImage chunks keys).length := by
        rw [length_dictImage, length_dictImage, length_vectorImage, length_vectorImage,
          length_congr hlengths, length_flatten_congr hlengths]
      have hcount' : keys.length = (chunks.set i new).length := by rw [List.length_set, hcount]
      refine ⟨.dict hcount' hkeys (sound_of_mem_set hchunks hsound) rest, ?_, ?_, ?_, ?_, ?_,
        hother⟩
      · rw [List.length_append, List.length_append, hsame]
      · rw [itemCount, itemCount, storedCount_dictImage (by omega), storedCount_dictImage himage,
          List.length_set]
      · rw [usedLength_dictImage _ _ (by omega) hcount' hkeys,
          usedLength_dictImage _ _ himage hcount hkeys, hsame]
      · intro j
        apply congrArg (Option.map (part, ·))
        rw [hspans, dictImage_append, vectorSpan?_congr hvector hlengths]
      · rw [storedKeys_dictImage (by omega) hcount' hkeys, storedKeys_dictImage himage hcount hkeys]

/-! ## Maps -/

/-- The span of a field of a map, if the field is present. -/
def mapSpan? (fields : List (Field Layout)) (b : Bytes) (f : Field Layout) : Option Span :=
  match f.place with
  | .fixed span => some span
  | .optional k => optionalSpan? (fixedRegion fields) (dataStart fields) b k

theorem partSpan?_map (fields : List (Field Layout)) (b : Bytes) (j : Nat) :
    partSpan? (.map fields) b j
      = (fields[j]?).bind fun f => (mapSpan? fields b f).map (f.layout, ·) := by
  show fieldSpan? (.map fields) b j = _
  rw [fieldSpan?]
  cases fields[j]? with
  | none => rfl
  | some f =>
    simp only [Option.bind_eq_bind, Option.bind_some, Option.pure_def, mapSpan?]
    cases f.place with
    | fixed span => rfl
    | optional k =>
      dsimp only
      cases optionalSpan? (fixedRegion fields) (dataStart fields) b k <;> rfl

theorem partSpan?_map_eq_some (ht : partSpan? (.map fields) b j = some (part, span)) :
    ∃ f, fields[j]? = some f ∧ part = f.layout ∧ mapSpan? fields b f = some span := by
  rw [partSpan?_map] at ht
  obtain ⟨f, hf, hpair⟩ := Option.bind_eq_some_iff.mp ht
  obtain ⟨hpart, hfound⟩ := eq_of_map_pair f.layout hpair
  exact ⟨f, hf, hpart, hfound⟩

/-- Rewriting a field at a fixed place. -/
theorem splice_mapImage_fixed {fixed : Bytes} (hfits : span.Fits fixed)
    (hnew : new.length = span.length) (chunks : List Bytes) (rest : Bytes) :
    span.splice (mapImage fixed chunks ++ rest) new
      = mapImage (span.splice fixed new) chunks ++ rest := by
  have hlength : (span.splice fixed new).length = fixed.length :=
    Span.length_splice_of_fits hfits hnew
  rw [mapImage, mapImage, hlength, List.append_assoc, List.append_assoc, List.append_assoc,
    List.append_assoc, Span.splice_append hfits]

section Map

variable {fixed fixed' rest : Bytes} {chunks' : List Bytes} {f g : Field Layout} {k : Nat}

/-- An optional field that is present is one of the chunks. -/
theorem optionalSpan?_eq_some (hfixed : fixed.length = fixedRegion fields)
    (hcount : chunks.length = optionalCount fields)
    (hsmall : (mapImage fixed chunks).length < 2 ^ 32) (hk : k < chunks.length)
    (h : optionalSpan? (fixedRegion fields) (dataStart fields) (mapImage fixed chunks ++ rest) k
      = some span) :
    chunks[k] ≠ [] ∧ span = ⟨runStart (dataStart fields) chunks k, chunks[k].length⟩ := by
  have hspan := optionalSpan?_mapImage rest hsmall hk
  rw [hfixed, hcount, ← dataStart_eq] at hspan
  rw [hspan] at h
  split_ifs at h with hempty
  refine ⟨?_, (Option.some.inj h).symm⟩
  intro hnil
  exact hempty (by rw [hnil]; rfl)

/-- The chunks begin behind the fixed places. -/
theorem stop_le_runStart (hf : f ∈ fields) (hplace : f.place = .fixed span) (k : Nat) :
    span.stop ≤ runStart (dataStart fields) chunks k := by
  calc span.stop ≤ fixedRegion fields := stop_le_fixedRegion hf hplace
    _ ≤ dataStart fields := fixedRegion_le_dataStart fields
    _ ≤ runStart (dataStart fields) chunks k := Nat.le_add_right _ _

/-- Different fields of a map do not overlap. -/
theorem mapSpan?_apart (harranged : Arranged 0 0 fields) (hnames : (fields.map Field.name).Nodup)
    (hfixed : fixed.length = fixedRegion fields) (hcount : chunks.length = optionalCount fields)
    (hsmall : (mapImage fixed chunks).length < 2 ^ 32) {t : Span}
    (hf : fields[i]? = some f) (hg : fields[j]? = some g) (hne : j ≠ i)
    (hs : mapSpan? fields (mapImage fixed chunks ++ rest) f = some span)
    (ht : mapSpan? fields (mapImage fixed chunks ++ rest) g = some t) :
    t.stop ≤ span.start ∨ span.stop ≤ t.start := by
  have hfMem := List.mem_of_getElem? hf
  have hgMem := List.mem_of_getElem? hg
  rw [mapSpan?] at hs ht
  cases hfPlace : f.place with
  | fixed s' =>
    rw [hfPlace] at hs
    cases hs
    cases hgPlace : g.place with
    | fixed t' =>
      rw [hgPlace] at ht
      cases ht
      exact harranged.apart hf hg hfPlace hgPlace hne
    | optional k =>
      rw [hgPlace] at ht
      have hk := hcount ▸ harranged.ordinal_lt hgMem hgPlace
      obtain ⟨-, rfl⟩ := optionalSpan?_eq_some hfixed hcount hsmall hk ht
      exact Or.inr (stop_le_runStart hfMem hfPlace k)
  | optional k =>
    rw [hfPlace] at hs
    have hk := hcount ▸ harranged.ordinal_lt hfMem hfPlace
    obtain ⟨-, rfl⟩ := optionalSpan?_eq_some hfixed hcount hsmall hk hs
    cases hgPlace : g.place with
    | fixed t' =>
      rw [hgPlace] at ht
      cases ht
      exact Or.inl (stop_le_runStart hgMem hgPlace k)
    | optional k' =>
      rw [hgPlace] at ht
      have hk' := hcount ▸ harranged.ordinal_lt hgMem hgPlace
      obtain ⟨-, rfl⟩ := optionalSpan?_eq_some hfixed hcount hsmall hk' ht
      refine disjoint_runs _ hk hk' ?_
      -- two fields with one number would be one field
      rintro rfl
      have hsame := harranged.eq_of_place_eq hfMem hgMem hfPlace hgPlace
      have hlt := (List.getElem?_eq_some_iff.mp hg).1
      have hentry : fields[j]? = fields[i]? := by rw [hg, hf, hsame]
      exact hne ((List.getElem?_inj hlt (hnames.of_map _)).mp hentry)

/-- Images of maps whose parts have the same lengths look the same from outside. -/
theorem sameBut_mapImage (harranged : Arranged 0 0 fields)
    (hfixed : fixed.length = fixedRegion fields) (hcount : chunks.length = optionalCount fields)
    (hsmall : (mapImage fixed chunks).length < 2 ^ 32) (hfixed' : fixed'.length = fixed.length)
    (hlengths : chunks'.map List.length = chunks.map List.length)
    (hother : ∀ j part t, j ≠ i → partSpan? (.map fields) (mapImage fixed chunks ++ rest) j
      = some (part, t) →
        t.slice (mapImage fixed' chunks' ++ rest) = t.slice (mapImage fixed chunks ++ rest)) :
    SameBut (.map fields) i (mapImage fixed chunks ++ rest) (mapImage fixed' chunks' ++ rest) := by
  have hcount' := length_congr hlengths
  have hsame : (mapImage fixed' chunks').length = (mapImage fixed chunks).length := by
    rw [length_mapImage, length_mapImage, hfixed', hcount', length_flatten_congr hlengths]
  refine ⟨?_, rfl, ?_, ?_, rfl, hother⟩
  · rw [List.length_append, List.length_append, hsame]
  · rw [usedLength_mapImage (hfixed'.trans hfixed) (hcount'.trans hcount) (by omega),
      usedLength_mapImage hfixed hcount hsmall, hsame]
  · intro j
    rw [partSpan?_map, partSpan?_map]
    cases hf : fields[j]? with
    | none => rfl
    | some f =>
      rw [Option.bind_some, Option.bind_some, mapSpan?, mapSpan?]
      cases hplace : f.place with
      | fixed s => rfl
      | optional k =>
        have hk := hcount ▸ harranged.ordinal_lt (List.mem_of_getElem? hf) hplace
        -- an optional field is found through the lengths of the chunks, which are the same
        have hspan := optionalSpan?_congr rest rest hsmall hfixed' hlengths hk
        rw [hfixed, hcount, ← dataStart_eq] at hspan
        dsimp only
        rw [hspan]

/-- A field at a fixed place of a map may be rewritten. -/
theorem rewritable_map_fixed (harranged : Arranged 0 0 fields)
    (hfixed : fixed.length = fixedRegion fields) (hcount : chunks.length = optionalCount fields)
    (hchunks : ∀ f ∈ fields, ∀ k chunk, f.place = .optional k → chunks[k]? = some chunk →
      chunk ≠ [] → Sound f.layout chunk)
    (hsmall : (mapImage fixed chunks).length < 2 ^ 32) (hf : f ∈ fields)
    (hplace : f.place = .fixed span)
    (hapart : Apart (.map fields) (mapImage fixed chunks ++ rest) i span) :
    Rewritable (.map fields) (mapImage fixed chunks ++ rest) i f.layout span := by
  have hfitsFixed : span.Fits fixed := by
    rw [Span.Fits, hfixed]
    exact stop_le_fixedRegion hf hplace
  have hfits : span.Fits (mapImage fixed chunks ++ rest) := by
    rw [Span.Fits, List.length_append, length_mapImage, optionalStart]
    rw [Span.Fits] at hfitsFixed
    omega
  refine ⟨hfits, ?_, ?_⟩
  · exact sound_of_fixedLength (harranged.length_eq hf hplace) (Span.length_slice_of_fits hfits)
  · intro new hnew _
    have hother := hapart.other hfits hnew
    have hlength : (span.splice fixed new).length = fixed.length :=
      Span.length_splice_of_fits hfitsFixed hnew
    rw [splice_mapImage_fixed hfitsFixed hnew] at hother ⊢
    exact ⟨.map (hlength.trans hfixed) hcount hchunks rest,
      sameBut_mapImage harranged hfixed hcount hsmall hlength rfl hother⟩

/-- An optional field of a map may be rewritten, if it is present. -/
theorem rewritable_map_optional (harranged : Arranged 0 0 fields)
    (hfixed : fixed.length = fixedRegion fields) (hcount : chunks.length = optionalCount fields)
    (hchunks : ∀ f ∈ fields, ∀ k chunk, f.place = .optional k → chunks[k]? = some chunk →
      chunk ≠ [] → Sound f.layout chunk)
    (hsmall : (mapImage fixed chunks).length < 2 ^ 32) (hf : f ∈ fields)
    (hplace : f.place = .optional k)
    (hfound : optionalSpan? (fixedRegion fields) (dataStart fields) (mapImage fixed chunks ++ rest) k
      = some span)
    (hapart : Apart (.map fields) (mapImage fixed chunks ++ rest) i span) :
    Rewritable (.map fields) (mapImage fixed chunks ++ rest) i f.layout span := by
  have hfits := Layout.storedSpan?_fits hfound
  have hk := hcount ▸ harranged.ordinal_lt hf hplace
  obtain ⟨hne, rfl⟩ := optionalSpan?_eq_some hfixed hcount hsmall hk hfound
  have hstart : dataStart fields = optionalStart fixed.length chunks.length := by
    rw [dataStart_eq, hfixed, hcount]
  refine ⟨hfits, ?_, ?_⟩
  · rw [hstart, slice_mapImage fixed rest hk]
    exact hchunks f hf k _ hplace (List.getElem?_eq_getElem hk) hne
  · intro new hnew hsound
    have hother := hapart.other hfits hnew
    rw [hstart, splice_mapImage hk hnew] at hother
    rw [hstart, splice_mapImage hk hnew]
    have hlengths := map_length_set hk hnew
    refine ⟨.map hfixed ((length_congr hlengths).trans hcount) ?_ rest,
      sameBut_mapImage harranged hfixed hcount hsmall rfl hlengths hother⟩
    intro g hg k' chunk hgPlace hchunk hne'
    by_cases hkk : k = k'
    · -- the field with the number of the rewritten one is that field
      subst hkk
      rw [List.getElem?_set_self hk, Option.some.injEq] at hchunk
      rw [harranged.eq_of_place_eq hf hg hplace hgPlace, ← hchunk]
      exact hsound
    · rw [List.getElem?_set_ne hkk] at hchunk
      exact hchunks g hg k' chunk hgPlace hchunk hne'

theorem rewritable_map (h : Sound (.map fields) b) (harranged : Arranged 0 0 fields)
    (hnames : (fields.map Field.name).Nodup) (hsmall : b.length < 2 ^ 32)
    (hspan : partSpan? (.map fields) b i = some (part, span)) :
    Rewritable (.map fields) b i part span := by
  cases h with
  | @map _ fixed chunks hfixed hcount hchunks rest =>
    have himage : (mapImage fixed chunks).length < 2 ^ 32 := by
      rw [List.length_append] at hsmall
      omega
    obtain ⟨f, hf, rfl, hfound⟩ := partSpan?_map_eq_some hspan
    have hapart : Apart (.map fields) (mapImage fixed chunks ++ rest) i span := by
      intro j q t hne ht
      obtain ⟨g, hg, -, ht⟩ := partSpan?_map_eq_some ht
      exact mapSpan?_apart harranged hnames hfixed hcount himage hf hg hne hfound ht
    have hmem := List.mem_of_getElem? hf
    unfold mapSpan? at hfound
    cases hplace : f.place with
    | fixed s =>
      rw [hplace] at hfound
      cases hfound
      exact rewritable_map_fixed harranged hfixed hcount hchunks himage hmem hplace hapart
    | optional k =>
      rw [hplace] at hfound
      exact rewritable_map_optional harranged hfixed hcount hchunks himage hmem hplace hfound hapart

end Map

/-! ## All layouts -/

/-- **Rewriting.**  Each part of a sound byte string is complete and sound, and may be rewritten by
any sound bytes of the same number without touching the rest. -/
theorem Sound.rewritable (h : Sound layout b) (hwf : layout.WellFormed)
    (hsmall : b.length < 2 ^ 32) (hspan : partSpan? layout b i = some (part, span)) :
    Rewritable layout b i part span := by
  cases hwf with
  | array capacity hitem hstride => exact rewritable_array h hstride hspan
  | packed p capacity => exact rewritable_packed h hsmall hspan
  | vector limit hitem => exact rewritable_vector h hsmall hspan
  | dict hkey hlength hvalue => exact rewritable_dict h hsmall hspan
  | object hparts harranged hfixed hnames => exact rewritable_object h harranged hspan
  | map hparts harranged hnames => exact rewritable_map h harranged hnames hsmall hspan
  | _ => cases hspan

end Layout

end BinarySchema
