/-
# Looking up entries of a dict

A key is looked for by its bytes, and the first entry whose key has these bytes is the one that is
found (`keyIndex?_dictImage`).  Decoding goes another way: it reads all keys, and of those that read
alike the first one stays.  The two agree on every key whose bytes read as the key itself
(`storedName_eq_iff`), since there what is read determines the bytes.
-/
import BinarySchema.Proofs.Access
import BinarySchema.Proofs.Degradation

namespace BinarySchema

/-! ## Searching -/

namespace Value

variable {α : Type} {names : List String} {xs : List α} {name : String} {i : Nat}

/-- Of several entries with one name the first one is found. -/
theorem lookup_zip_of_isLeast (hlength : names.length = xs.length)
    (h : IsLeast {j | names[j]? = some name} i) : (names.zip xs).lookup name = xs[i]? := by
  induction names generalizing xs i with
  | nil => exact absurd h.1 (by simp)
  | cons first names ih =>
    obtain ⟨x, xs, rfl⟩ := List.exists_cons_of_length_eq_add_one hlength.symm
    rw [List.zip_cons_cons, List.lookup_cons]
    by_cases hname : name = first
    · have hzero : i ≤ 0 := h.2 (congrArg some hname.symm)
      rw [beq_iff_eq.mpr hname, Nat.le_zero.mp hzero]
      rfl
    · obtain ⟨i, rfl⟩ := Nat.exists_eq_succ_of_ne_zero (n := i) (by
        rintro rfl
        exact hname (Option.some.inj h.1).symm)
      rw [beq_false_of_ne hname]
      exact ih (Nat.succ.inj hlength)
        ⟨h.1, fun j hj => Nat.le_of_succ_le_succ (h.2 (show (first :: names)[j + 1]? = _ from hj))⟩

theorem lookup_zip_eq_none (h : ∀ j : Nat, names[j]? ≠ some name) :
    (names.zip xs).lookup name = none := by
  rw [List.lookup_eq_none_iff]
  intro e he
  obtain ⟨j, hj⟩ := List.mem_iff_getElem?.mp (List.of_mem_zip he).1
  exact bne_iff_ne.mpr fun heq => h j (hj.trans (congrArg some heq.symm))

end Value

namespace Layout

variable {key value : Layout} {keyLength i start count : Nat} {k : String} {v : Value}
  {entries : List (String × Value)} {chunks : List Bytes} {rest : Bytes}

/-- A search from `start` on finds the least number with the property. -/
theorem firstFrom_eq_some_iff {p : Nat → Bool} :
    firstFrom p start count = some i
      ↔ IsLeast {j | start ≤ j ∧ j < start + count ∧ p j = true} i := by
  induction count generalizing start with
  | zero =>
    rw [firstFrom]
    exact ⟨fun h => (nomatch h), fun h => absurd h.1 (by rintro ⟨hle, hlt, -⟩; omega)⟩
  | succ count ih =>
    rw [firstFrom]
    split_ifs with hp
    · have hleast : IsLeast {j | start ≤ j ∧ j < start + (count + 1) ∧ p j = true} start :=
        ⟨⟨le_refl _, by omega, hp⟩, fun j hj => hj.1⟩
      exact ⟨fun h => Option.some.inj h ▸ hleast, fun h => congrArg some (hleast.unique h)⟩
    · have hset : {j | start + 1 ≤ j ∧ j < start + 1 + count ∧ p j = true}
          = {j | start ≤ j ∧ j < start + (count + 1) ∧ p j = true} := by
        ext j
        constructor
        · rintro ⟨hle, hlt, hj⟩
          exact ⟨by omega, by omega, hj⟩
        · rintro ⟨hle, hlt, hj⟩
          have hne : j ≠ start := by
            rintro rfl
            exact hp hj
          exact ⟨by omega, by omega, hj⟩
      rw [ih, hset]

/-! ## Keys -/

/-- The entry with the given number has a key that is stored as `k` is. -/
def HasKey (key : Layout) (keyLength : Nat) (entries : List (String × Value)) (k : String)
    (i : Nat) : Prop :=
  ∃ e, entries[i]? = some e ∧ keyBytes key keyLength e.1 = keyBytes key keyLength k

/-- A text stands for the key that it would be. -/
theorem needle_lookupKey (key : Layout) (keyLength : Nat) (k : String) :
    needle key keyLength (lookupKey key (.text k)) = keyBytes key keyLength k := by
  cases key <;> rfl

/-- **Search.**  The first entry is found, at or after `start`, whose key is stored as the text is. -/
theorem keyIndex?_dictImage (hkey : key.KeepsLength) (hcount : chunks.length = entries.length)
    (hsmall : (dictImage chunks (entries.map fun e => keyBytes key keyLength e.1)).length < 2 ^ 32) :
    keyIndex? key keyLength
        (dictImage chunks (entries.map fun e => keyBytes key keyLength e.1) ++ rest) (.text k) start
        = some i
      ↔ IsLeast {j | start ≤ j ∧ HasKey key keyLength entries k j} i := by
  have hkeys : ∀ stored ∈ entries.map fun e => keyBytes key keyLength e.1,
      stored.length = keyLength := by
    intro stored hstored
    obtain ⟨e, -, rfl⟩ := List.mem_map.mp hstored
    exact length_keyBytes hkey e.1
  have hnumber : keyCount keyLength (dictImage chunks
      (entries.map fun e => keyBytes key keyLength e.1) ++ rest) = chunks.length :=
    keyCount_dictImage hsmall (by rw [List.length_map, hcount]) hkeys
  have hset : {j | start ≤ j ∧ HasKey key keyLength entries k j}
      = {j | start ≤ j ∧ j < start + (entries.length - start)
        ∧ ((keySpan keyLength
            (dictImage chunks (entries.map fun e => keyBytes key keyLength e.1) ++ rest) j).slice
            (dictImage chunks (entries.map fun e => keyBytes key keyLength e.1) ++ rest)
          == keyBytes key keyLength k) = true} := by
    ext j
    constructor
    · rintro ⟨hle, e, he, hbytes⟩
      obtain ⟨hj, rfl⟩ := List.getElem?_eq_some_iff.mp he
      refine ⟨hle, by omega, beq_iff_eq.mpr ?_⟩
      rw [slice_keySpan hsmall hkeys (by rw [List.length_map]; exact hj), List.getElem_map, hbytes]
    · rintro ⟨hle, hlt, hbytes⟩
      have hj : j < entries.length := by omega
      rw [beq_iff_eq, slice_keySpan hsmall hkeys (by rw [List.length_map]; exact hj),
        List.getElem_map] at hbytes
      exact ⟨hle, entries[j], List.getElem?_eq_getElem hj, hbytes⟩
  unfold keyIndex?
  dsimp only
  rw [needle_lookupKey, hnumber, hcount, firstFrom_eq_some_iff, hset]

/-- **Keys.**  Where what is read of the bytes of a key is the key itself, another key reads as it
only if it has the same bytes.  The keys of a dict with texts for keys have to read as themselves for
this as well. -/
theorem storedName_eq_iff (hlength : key.fixedLength? = some keyLength) (hk : CanonicalKey key k)
    {name : String} (hname : ∀ cap, key = .text cap → CanonicalKey key name) :
    storedName key keyLength name = k ↔ keyBytes key keyLength name = keyBytes key keyLength k := by
  have hread : storedName key keyLength k = k := hk.keyReads hlength _ (length_zeros keyLength)
  constructor
  · intro hstored
    cases key with
    | text cap =>
      have hself : storedName (.text cap) keyLength name = name :=
        (hname cap rfl).keyReads hlength _ (length_zeros keyLength)
      rw [← hself, hstored]
    | primitive p =>
      obtain ⟨hkeys, -⟩ := hk
      cases hlength
      have hbytes : ∀ name, keyBytes (.primitive p) p.width name = p.write (.ofKey name) :=
        putKey_primitive (length_zeros p.width)
      -- the value that is read of the stored key tells the bytes that it is read of
      have hholds := Primitive.holds_read hkeys (p.write (.ofKey name))
      rw [storedName, hbytes, decode, keyText_primitive hkeys] at hstored
      rw [hbytes, hbytes, ← hstored, Primitive.write_ofKey hkeys hholds,
        Primitive.write_read_write hkeys]
    | _ => exact hk.elim
  · intro hbytes
    rw [storedName, hbytes]
    exact hread

/-! ## Entries -/

/-- A value that is placed in full is a hole if it is null or takes no bytes. -/
theorem IsFullChunk.eq_nil_iff (hwf : value.WellFormed) {x : Value} {chunk : Bytes}
    (h : IsFullChunk (itemPart value x) chunk) :
    chunk = [] ↔ x = .null ∨ encodedLength value x = 0 := by
  by_cases hnull : x = .null
  · subst hnull
    exact ⟨fun _ => Or.inl rfl, fun _ => h⟩
  · rw [itemPart, Value.isNull_eq_false hnull] at h
    obtain ⟨slot, hslot, rfl⟩ := h
    dsimp only at hslot ⊢
    rw [← List.length_eq_zero_iff, or_iff_right hnull, ← hslot]
    constructor
    · intro hzero
      by_contra hpos
      exact absurd hzero (hwf.length_value_pos hslot (Nat.pos_of_ne_zero hpos)).ne'
    · intro hzero
      have hle := (hwf.keepsLength.encodeOver x slot).2
      rw [Written.value, List.length_take]
      omega

/-- The parts of a dict that are found under its keys. -/
structure DictParts (key : Layout) (keyLength : Nat) (value : Layout) (v : Value) (b : Bytes)
    (chunks : List Bytes) : Prop where
  /-- The bytes are an image of the values and the keys. -/
  image : b = dictImage chunks (v.fields.map fun e => keyBytes key keyLength e.1)
  /-- Each value is written in full. -/
  full : List.Forall₂ (fun e chunk => IsFullChunk (itemPart value e.2) chunk) v.fields chunks

theorem WellFormed.exists_dictParts (hkey : key.WellFormed)
    (hlength : key.fixedLength? = some keyLength) (hvalue : value.WellFormed) (v : Value) :
    ∃ chunks, DictParts key keyLength value v (toBytes (.dict key keyLength value) v) chunks := by
  obtain ⟨room, hroom, hbytes⟩ := value_encodeOver_dict hkey hlength hvalue v
    (b := zeros (freshLength (.dict key keyLength value) v)) (length_zeros _)
  have hfull := place_full (allKeep_map_itemPart hvalue.keepsLength (v.fields.map (·.2)))
    (le_of_eq hroom.symm)
  rw [List.forall₂_map_left_iff, List.forall₂_map_left_iff] at hfull
  exact ⟨_, hbytes, hfull⟩

section

variable {b : Bytes} (hparts : DictParts key keyLength value v b chunks) (hsmall : b.length < 2 ^ 32)

include hparts

theorem DictParts.length_eq : chunks.length = v.fields.length := hparts.full.length_eq.symm

include hsmall

theorem DictParts.keyIndex?_iff (hkey : key.KeepsLength) :
    keyIndex? key keyLength b (.text k) start = some i
      ↔ IsLeast {j | start ≤ j ∧ HasKey key keyLength v.fields k j} i := by
  obtain ⟨rfl, -⟩ := id hparts
  rw [← List.append_nil (dictImage _ _)]
  exact keyIndex?_dictImage hkey hparts.length_eq hsmall

/-- The first entry with a key is looked up. -/
theorem DictParts.keyIndex?_zero (hkey : key.KeepsLength) :
    keyIndex? key keyLength b (.text k) 0 = some i
      ↔ IsLeast {j | HasKey key keyLength v.fields k j} i := by
  have hset : {j | 0 ≤ j ∧ HasKey key keyLength v.fields k j}
      = {j | HasKey key keyLength v.fields k j} := by
    ext j
    exact and_iff_right (Nat.zero_le j)
  rw [hparts.keyIndex?_iff hsmall hkey, hset]

/-- The value of each entry is found, unless it is a hole. -/
theorem DictParts.vectorSpan?_cases (hi : i < chunks.length) :
    vectorSpan? b i = none ∧ chunks[i] = []
      ∨ ∃ span, vectorSpan? b i = some span ∧ span.slice b = chunks[i] ∧ chunks[i] ≠ [] := by
  obtain ⟨rfl, -⟩ := id hparts
  rw [dictImage, vectorSpan?_vectorImage (vectorImage_lt_of_dictImage hsmall) hi]
  by_cases hempty : chunks[i] = []
  · exact Or.inl ⟨by rw [hempty]; rfl, hempty⟩
  · rw [if_neg (by rwa [List.length_eq_zero_iff])]
    exact Or.inr ⟨_, rfl, slice_vectorImage hi, hempty⟩

/-- What a dict decodes to under a name. -/
theorem DictParts.get?_decode (hkey : key.KeepsLength) :
    (decode (.dict key keyLength value) b).get? k
      = Value.nonNull (((v.fields.map fun e => storedName key keyLength e.1).zip
        (chunks.map (chunkValue value))).lookup k) := by
  obtain ⟨rfl, -⟩ := id hparts
  rw [← List.append_nil (dictImage _ _), decode_dictImage_entries hkey hparts.length_eq [] hsmall,
    Value.get?_eq_nonNull, Value.fields, Value.fields?, Option.getD_some, Value.lookup_setNew,
    List.lookup_nil, Option.none_or]

end

theorem entrySpan?_dict (key : Layout) (keyLength : Nat) (value : Layout) (b : Bytes) (k : Value) :
    entrySpan? (.dict key keyLength value) b k
      = (keyIndex? key keyLength b k 0).bind fun i => (vectorSpan? b i).map (value, ·) := by
  rw [entrySpan?]
  cases keyIndex? key keyLength b k 0 with
  | none => rfl
  | some i =>
    simp only [Option.bind_eq_bind, Option.bind_some, Option.pure_def]
    cases vectorSpan? b i <;> rfl

/-- If any entry has a key, a first one has it. -/
theorem exists_isLeast_of_hasKey (h : HasKey key keyLength entries k i) :
    ∃ i, IsLeast {j | HasKey key keyLength entries k j} i :=
  ⟨_, isLeast_csInf ⟨i, h⟩⟩

/-- Names that read as a key where its bytes are stored have the same first entry. -/
theorem setOf_storedName (hname : ∀ e ∈ entries, storedName key keyLength e.1 = k
      ↔ keyBytes key keyLength e.1 = keyBytes key keyLength k) :
    {j | (entries.map fun e => storedName key keyLength e.1)[j]? = some k}
      = {j | HasKey key keyLength entries k j} := by
  ext j
  show (entries.map fun e => storedName key keyLength e.1)[j]? = some k
    ↔ HasKey key keyLength entries k j
  rw [List.getElem?_map, Option.map_eq_some_iff]
  constructor
  · rintro ⟨e, he, hstored⟩
    exact ⟨e, he, (hname e (List.mem_of_getElem? he)).mp hstored⟩
  · rintro ⟨e, he, hbytes⟩
    exact ⟨e, he, (hname e (List.mem_of_getElem? he)).mpr hbytes⟩

/-- **Lookup.**  A window finds under a key what the decoded dict has there. -/
theorem DictParts.get?_key {b : Bytes} (hparts : DictParts key keyLength value v b chunks)
    (hsmall : b.length < 2 ^ 32) (hkey : key.KeepsLength)
    (hname : ∀ e ∈ v.fields, storedName key keyLength e.1 = k
      ↔ keyBytes key keyLength e.1 = keyBytes key keyLength k) :
    Window.get? ⟨.dict key keyLength value, b⟩ (.key (.text k))
      = (decode (.dict key keyLength value) b).get? k := by
  have hlengths : (v.fields.map fun e => storedName key keyLength e.1).length
      = (chunks.map (chunkValue value)).length := by
    rw [List.length_map, List.length_map, hparts.length_eq]
  have hset := setOf_storedName hname
  rw [hparts.get?_decode hsmall hkey, Window.get?, Window.map_value_part?, Window.target?]
  dsimp only
  rw [entrySpan?_dict]
  cases hindex : keyIndex? key keyLength b (.text k) 0 with
  | none =>
    have hnone : ∀ j : Nat, (v.fields.map fun e => storedName key keyLength e.1)[j]? ≠ some k := by
      intro j hj
      obtain ⟨i, hi⟩ := exists_isLeast_of_hasKey (hset.subset hj)
      rw [(hparts.keyIndex?_zero hsmall hkey).mpr hi] at hindex
      cases hindex
    rw [Value.lookup_zip_eq_none hnone]
    rfl
  | some i =>
    have hleast := (hparts.keyIndex?_zero hsmall hkey).mp hindex
    obtain ⟨e, he, -⟩ := hleast.1
    have hi : i < chunks.length := by
      rw [hparts.length_eq]
      exact (List.getElem?_eq_some_iff.mp he).1
    rw [Value.lookup_zip_of_isLeast hlengths (hset ▸ hleast), List.getElem?_map,
      List.getElem?_eq_getElem hi, Option.map_some, chunkValue, Option.bind_some]
    rcases hparts.vectorSpan?_cases hsmall hi with ⟨hspan, hempty⟩ | ⟨span, hspan, hslice, hne⟩
    · rw [hspan, hempty]
      rfl
    · have hfits := Window.vectorSpan?_fits hspan
      rw [hspan, Option.map_some, Option.bind_some, Span.slice?_of_fits hfits, Option.map_some, hslice,
         if_neg (by rwa [List.length_eq_zero_iff]), Value.nonNull_some (decode_ne_null _ _)]

/-- **Dict lookup.**  A key is looked up in the encoding of a dict.  Its number, at or after `start`,
is that of the first entry whose key is stored as it is, and the entry under it is the slot of the
value there.  There is none if no entry has the key, or if the value is null or takes no bytes; any
other value is written to a slot of the size that it needs.  A key that reads as itself is found
exactly where the decoded dict has it. -/
theorem dict_lookup (hlayout : (Layout.dict key keyLength value).IsCompiled) (v : Value)
    (hsmall : (toBytes (.dict key keyLength value) v).length < 2 ^ 32) (k : String) :
    let dict : Layout := .dict key keyLength value
    let b := toBytes dict v
    (∀ start i, indexOf? dict b (.text k) start = some i
      ↔ IsLeast {j | start ≤ j ∧ HasKey key keyLength v.fields k j} i)
    ∧ ((∀ i, ¬ HasKey key keyLength v.fields k i) → entrySpan? dict b (.text k) = none)
    ∧ (∀ i e, IsLeast {j | HasKey key keyLength v.fields k j} i → v.fields[i]? = some e →
      entrySpan? dict b (.text k) = itemSpan? dict b i
      ∧ (e.2 = .null ∨ encodedLength value e.2 = 0 → entrySpan? dict b (.text k) = none)
      ∧ (e.2 ≠ .null → 0 < encodedLength value e.2 → ∃ span slot,
        entrySpan? dict b (.text k) = some (value, span) ∧ slot.length = encodedLength value e.2
          ∧ span.slice b = (encodeOver value e.2 slot).value))
    ∧ (CanonicalKey key k → (∀ cap, key = .text cap → ∀ e ∈ v.fields, CanonicalKey key e.1) →
      Window.get? ⟨dict, b⟩ (.key (.text k)) = (decode dict b).get? k) := by
  intro dict b
  cases hlayout.wellFormed with
  | dict hkey hlength hvalue =>
    obtain ⟨chunks, hparts⟩ := WellFormed.exists_dictParts hkey hlength hvalue v
    have hfirst := fun i => hparts.keyIndex?_zero (k := k) (i := i) hsmall hkey.keepsLength
    refine ⟨fun start i => hparts.keyIndex?_iff hsmall hkey.keepsLength, ?_, ?_, ?_⟩
    · intro hnone
      rw [entrySpan?_dict]
      cases hindex : keyIndex? key keyLength b (.text k) 0 with
      | none => rfl
      | some i => exact absurd ((hfirst i).mp hindex).1 (hnone i)
    · intro i e hleast he
      obtain ⟨hi', rfl⟩ := List.getElem?_eq_some_iff.mp he
      have hi : i < chunks.length := hi'.trans_eq hparts.length_eq.symm
      have hchunk : IsFullChunk (itemPart value v.fields[i].2) chunks[i] := hparts.full.get hi' hi
      have hnil := hchunk.eq_nil_iff hvalue
      have hentry : entrySpan? dict b (.text k) = (vectorSpan? b i).map (value, ·) := by
        rw [entrySpan?_dict, (hfirst i).mpr hleast, Option.bind_some]
      refine ⟨hentry, fun hempty => ?_, fun hnull hpos => ?_⟩
      · rcases hparts.vectorSpan?_cases hsmall hi with ⟨hspan, -⟩ | ⟨span, -, -, hne⟩
        · rw [hentry, hspan]
          rfl
        · exact absurd (hnil.mpr hempty) hne
      · rcases hparts.vectorSpan?_cases hsmall hi with ⟨-, hempty⟩ | ⟨span, hspan, hslice, -⟩
        · exact absurd (hnil.mp hempty) (not_or.mpr ⟨hnull, hpos.ne'⟩)
        · rw [itemPart, Value.isNull_eq_false hnull] at hchunk
          obtain ⟨slot, hslot, heq⟩ := hchunk
          exact ⟨span, slot, by rw [hentry, hspan, Option.map_some], hslot, hslice.trans heq⟩
    · intro hk hnames
      exact hparts.get?_key hsmall hkey.keepsLength fun e he =>
        storedName_eq_iff hlength hk fun cap hcap => hnames cap hcap e he

/-- Of the keys "261" and "5", which a byte stores alike, the first one is found; a third one has no
value. -/
theorem dict_lookup_bytes :
    let dict : Layout := .dict (.primitive .uint8) 1 (.text none)
    let d : Value := .record [("261", .text "Zaphod"), ("5", .text "Trillian"), ("7", .null)]
    let b := toBytes dict d
    indexOf? dict b (.text "5") 0 = some 0 ∧ indexOf? dict b (.text "5") 1 = some 1
      ∧ entrySpan? dict b (.text "5") = itemSpan? dict b 0 ∧ entrySpan? dict b (.text "7") = none
      ∧ Window.get? ⟨dict, b⟩ (.key (.text "5")) = (decode dict b).get? "5" := by
  intro dict d b
  have hcompiled : dict.IsCompiled := .of_eval ⟨0⟩ (.object
    [("type", .text "object"), ("btype", .text "dict"),
      ("propertyNames", .object [("type", .text "integer"), ("btype", .text "uint8")]),
      ("additionalProperties", .object [("type", .text "string")])]) (by cbv)
  have hsmall : (toBytes dict d).length < 2 ^ 32 := by decide +kernel
  have hfive : ∀ i < 2, HasKey (.primitive .uint8) 1 d.fields "5" i := by
    intro i hi
    interval_cases i
    · exact ⟨("261", .text "Zaphod"), rfl, by decide +kernel⟩
    · exact ⟨("5", .text "Trillian"), rfl, rfl⟩
  have hseven : IsLeast {j | HasKey (.primitive .uint8) 1 d.fields "7" j} 2 := by
    refine ⟨⟨("7", .null), rfl, rfl⟩, fun j hj => ?_⟩
    obtain ⟨e, he, hbytes⟩ := hj
    by_contra hlt
    have hj : j < 2 := by omega
    interval_cases j
    · cases he
      exact absurd hbytes (by decide +kernel)
    · cases he
      exact absurd hbytes (by decide +kernel)
  obtain ⟨hindex, -, hentry, hget⟩ := dict_lookup hcompiled d hsmall "5"
  obtain ⟨-, -, hnull, -⟩ := dict_lookup hcompiled d hsmall "7"
  have hcanonical : CanonicalKey (.primitive .uint8) "5" :=
    ⟨rfl, .int 5, ⟨5, _, _, rfl, rfl, by decide, by decide⟩, by decide +kernel⟩
  refine ⟨(hindex 0 0).mpr ⟨⟨le_refl 0, hfive 0 (by decide)⟩, fun j _ => Nat.zero_le j⟩,
    (hindex 1 1).mpr ⟨⟨le_refl 1, hfive 1 (by decide)⟩, fun j hj => hj.1⟩, ?_, ?_, ?_⟩
  · exact (hentry 0 ("261", .text "Zaphod") ⟨hfive 0 (by decide), fun j _ => Nat.zero_le j⟩ rfl).1
  · exact (hnull 2 ("7", .null) hseven rfl).2.1 (Or.inl rfl)
  · exact hget hcanonical fun cap hcap => by cases hcap

end Layout

end BinarySchema
