/-
# Values are read back

`Canonical pos layout v` says which values a layout stores without loss in a slot at a position of
the given kind: fixed, where the slot has the size of the layout, or tight, where it has the size
that the value needs.  Such a value is read back from its bytes (`decode_toBytes`).

The proof is an induction over canonical values, one lemma for each kind of layout: a value written
to a slot of its own size takes the whole slot and is read back from it (`ReadsBack`).  The lemmas on
dicts and maps ask no more of keys and optional fields than that these are read back in turn.
-/
import BinarySchema.Proofs.DecodeImage
import BinarySchema.Proofs.ReadSchema
import BinarySchema.Proofs.Text
import BinarySchema.Proofs.Write

namespace BinarySchema

namespace Layout

/-! ## Canonical values -/

/-- Where a value stands. -/
inductive Position where
  /-- By itself, or in a slot of the size of its layout. -/
  | fixed
  /-- In a slot of the size that it needs. -/
  | tight

/-- The number of bytes of the slot of a value. -/
def slotLength (pos : Position) (layout : Layout) (v : Value) : Nat :=
  match pos with
  | .fixed => freshLength layout v
  | .tight => encodedLength layout v

/-- The keys that are read back: texts without the null character that fit, and the numerals of
integers and truth values. -/
def CanonicalKey (key : Layout) (name : String) : Prop :=
  match key with
  | .text cap => Char.ofNat 0 ∉ name.toList ∧ WithinCap cap (Text.utf8 name).length
  | .primitive p => p.hasKeys = true ∧ ∃ v, p.Holds v ∧ name = v.toKey
  | _ => False

/-- The values that a layout stores without loss. -/
inductive Canonical : Position → Layout → Value → Prop
  | primitive {pos : Position} {p : Primitive} {v : Value} (hv : p.Holds v) :
      Canonical pos (.primitive p) v
  | text {pos : Position} {cap : Option Nat} {s : String} (hzero : Char.ofNat 0 ∉ s.toList)
      (hcap : WithinCap cap (Text.utf8 s).length) : Canonical pos (.text cap) (.text s)
  | blobFixed {cap : Option Nat} {content : Bytes} (hcap : ∀ n, cap = some n → content.length = n) :
      Canonical .fixed (.blob cap) (.blob content)
  | blobTight {cap : Option Nat} {content : Bytes} (hcap : WithinCap cap content.length) :
      Canonical .tight (.blob cap) (.blob content)
  | array {pos : Position} {item : Layout} {stride capacity : Nat} {items : List Value}
      (hcount : items.length = capacity) (hitems : ∀ i ∈ items, Canonical .fixed item i) :
      Canonical pos (.array item stride capacity) (.list items)
  | packed {pos : Position} {p : Primitive} {capacity : Nat} {items : List Value}
      (hcount : items.length = capacity) (hsize : capacity * p.width < 2 ^ 32)
      (hitems : ∀ i ∈ items, p.Holds i) : Canonical pos (.packed p capacity) (.list items)
  | vector {pos : Position} {item : Layout} {limit : Option Nat} {items : List Value}
      (hcount : WithinCap limit items.length)
      (hitems : ∀ i ∈ items, i ≠ .null → Canonical .tight item i)
      (hpos : ∀ i ∈ items, i ≠ .null → 0 < encodedLength item i) :
      Canonical pos (.vector item limit) (.list items)
  | dict {pos : Position} {key value : Layout} {keyLength : Nat} {entries : List (String × Value)}
      (hordered : Value.Ordered entries) (hkeys : ∀ e ∈ entries, CanonicalKey key e.1)
      (hvalues : ∀ e ∈ entries, e.2 ≠ .null → Canonical .tight value e.2)
      (hpos : ∀ e ∈ entries, e.2 ≠ .null → 0 < encodedLength value e.2) :
      Canonical pos (.dict key keyLength value) (.record entries)
  | object {pos : Position} {fields : List (Field Layout)} {entries : List (String × Value)}
      (hordered : Value.Ordered entries)
      (hnames : ∀ name, name ∈ entries.map (·.1) ↔ name ∈ fields.map Field.name)
      (hparts : ∀ f ∈ fields, ∀ x, entries.lookup f.name = some x → Canonical .fixed f.layout x) :
      Canonical pos (.object fields) (.record entries)
  | map {pos : Position} {fields : List (Field Layout)} {entries : List (String × Value)}
      (hordered : Value.Ordered entries)
      (hnames : ∀ name ∈ entries.map (·.1), name ∈ fields.map Field.name)
      (hpresent : ∀ f ∈ fields, f.ordinal? = none ∨ f.default ≠ none → f.name ∈ entries.map (·.1))
      (hfixed : ∀ f ∈ fields, f.ordinal? = none → ∀ x, entries.lookup f.name = some x →
        Canonical .fixed f.layout x)
      (hoptional : ∀ f ∈ fields, f.ordinal? ≠ none → ∀ x, entries.lookup f.name = some x →
        Canonical .tight f.layout x)
      (hlength : ∀ f ∈ fields, f.ordinal? ≠ none → ∀ x, entries.lookup f.name = some x →
        0 < encodedLength f.layout x ∧ WithinCap f.maxLength (encodedLength f.layout x)) :
      Canonical pos (.map fields) (.record entries)

variable {pos : Position} {layout : Layout} {v : Value} {b : Bytes}

/-- A canonical value is no hole. -/
theorem Canonical.ne_null (h : Canonical pos layout v) : v ≠ .null := by
  cases h with
  | primitive hv => exact hv.ne_null
  | _ => exact Value.noConfusion

/-! ## Reading back -/

/-- In every slot of `n` bytes the value takes the whole slot, and is read back from it. -/
def ReadsIn (n : Nat) (layout : Layout) (v : Value) : Prop :=
  ∀ u b, b.length = n →
    (write u layout v b).length = b.length ∧ decode layout (write u layout v b).bytes = v

/-- In a slot of its own size the value takes the whole slot, and is read back from it. -/
def ReadsBack (pos : Position) (layout : Layout) (v : Value) : Prop :=
  ∀ u b, b.length = slotLength pos layout v →
    (write u layout v b).length = b.length ∧ decode layout (write u layout v b).bytes = v

/-- The same holds over the seed of the layout. -/
theorem ReadsIn.encodeOver {n : Nat} (h : ReadsIn n layout v) (hkeep : layout.KeepsLength)
    (hb : b.length = n) :
    (encodeOver layout v b).value.length = b.length
      ∧ decode layout (encodeOver layout v b).value = v := by
  have hseed : (seed layout b).length = b.length := hkeep.2 b
  obtain ⟨hlength, hdecode⟩ := h .kept (seed layout b) (by rw [hseed, hb])
  have hvalue : (Layout.encodeOver layout v b).value = (Layout.encodeOver layout v b).bytes := by
    unfold Written.value
    apply List.take_of_length_le
    rw [(hkeep.encodeOver v b).1]
    exact le_of_eq (hseed.symm.trans hlength.symm)
  rw [hvalue]
  exact ⟨(hkeep.encodeOver v b).1, hdecode⟩

theorem ReadsBack.encodeOver (h : ReadsBack pos layout v) (hkeep : layout.KeepsLength)
    (hb : b.length = slotLength pos layout v) :
    (encodeOver layout v b).value.length = b.length
      ∧ decode layout (encodeOver layout v b).value = v :=
  ReadsIn.encodeOver h hkeep hb

/-- The slot of a value of a layout with one size has that size, wherever it stands, unless the size
is a cap. -/
theorem slotLength_of_fixed {n : Nat} (hlayout : layout.fixedLength? = some n)
    (htext : ∀ cap, layout ≠ .text cap) (hblob : ∀ cap, layout ≠ .blob cap) :
    slotLength pos layout v = n := by
  cases pos with
  | fixed => rw [slotLength, freshLength, hlayout, Option.getD_some]
  | tight =>
    rw [slotLength]
    cases layout with
    | text cap => exact absurd rfl (htext cap)
    | blob cap => exact absurd rfl (hblob cap)
    | vector item limit => cases hlayout
    | dict key keyLength value => cases hlayout
    | map fields => cases hlayout
    | _ =>
      rw [encodedLength]
      exact Option.some.inj hlayout

/-- The slot of a value of variable size is as long as the value needs, wherever it stands. -/
theorem slotLength_of_variable (hlayout : layout.fixedLength? = none) :
    slotLength pos layout v = encodedLength layout v := by
  cases pos with
  | fixed => rw [slotLength, freshLength, hlayout, Option.getD_none]
  | tight => rfl

theorem readsBack_primitive {p : Primitive} (hv : p.Holds v) : ReadsBack pos (.primitive p) v := by
  intro u b hb
  have hlength : b.length = p.width := hb.trans (slotLength_of_fixed rfl (by simp) (by simp))
  rw [write_primitive_slot u v hlength, decode, Primitive.read_write hv]
  exact ⟨hlength.symm, rfl⟩

theorem capped_of_withinCap {cap : Option Nat} {n : Nat} (h : WithinCap cap n) :
    capped cap n = n := by
  cases cap with
  | none => rfl
  | some m => exact Nat.min_eq_left (h m rfl)

theorem readsBack_text {cap : Option Nat} {s : String} (hzero : Char.ofNat 0 ∉ s.toList)
    (hcap : WithinCap cap (Text.utf8 s).length) : ReadsBack pos (.text cap) (.text s) := by
  intro u b hb
  have hcontent : Value.bytes (.text s) = Text.utf8 s := rfl
  have hcapped : capped cap (Text.utf8 s).length = (Text.utf8 s).length := capped_of_withinCap hcap
  -- the slot has room for the text, and no more than the cap admits
  have hbounds : (Text.utf8 s).length ≤ b.length ∧ b.length ≤ cap.getD (Text.utf8 s).length := by
    rw [hb]
    cases pos with
    | fixed =>
      rw [slotLength, freshLength, fixedLength?, encodedLength, hcontent, hcapped]
      exact ⟨hcap.le_getD (le_refl _), le_refl _⟩
    | tight =>
      rw [slotLength, encodedLength, hcontent, hcapped]
      exact ⟨le_refl _, hcap.le_getD (le_refl _)⟩
  rw [write, hcontent, writeContent_eq hbounds.2, fitted, List.take_of_length_le hbounds.1, decode,
    contentText_utf8 hzero]
  exact ⟨rfl, rfl⟩

/-- A blob is read back from a slot of its size. -/
theorem readsIn_blob {cap : Option Nat} {content : Bytes} (h : WithinCap cap content.length) :
    ReadsIn content.length (.blob cap) (.blob content) := by
  intro u b hb
  have hcontent : Value.bytes (.blob content) = content := rfl
  rw [write, hcontent, writeContent_eq (by rw [hb]; exact h.le_getD (le_refl _)), hb, fitted_length, decode,
    contentBytes, List.take_of_length_le (h.le_getD (le_refl _))]
  exact ⟨rfl, rfl⟩

theorem readsBack_blob {cap : Option Nat} {content : Bytes}
    (hcap : WithinCap cap content.length)
    (hslot : slotLength pos (.blob cap) (.blob content) = content.length) :
    ReadsBack pos (.blob cap) (.blob content) := by
  have hreads := readsIn_blob hcap
  rwa [← hslot] at hreads

/-- The front of a byte string that is rewritten up to its end. -/
theorem onFront_min {n : Nat} (h : n = b.length) (f : Bytes → Bytes) :
    onFront (min n b.length) f b = f b := by
  rw [h, Nat.min_self, onFront, List.take_length, List.drop_length, List.append_nil]

/-- What becomes of the slot of an item of an array. -/
def supplyItem (u : Unsupplied) (item : Layout) (i : Value) (slot : Bytes) : Bytes :=
  if i.isNull then slot else (write u item i slot).bytes

theorem length_supplyItem {item : Layout} (hkeep : item.KeepsLength) (u : Unsupplied) (i : Value)
    (slot : Bytes) : (supplyItem u item i slot).length = slot.length := by
  rw [supplyItem]
  split_ifs
  · rfl
  · exact (hkeep.1 u i slot).1

/-- An array that is written to a slot of its own size rewrites its slots one by one. -/
theorem write_array {item : Layout} {stride capacity : Nat} (u : Unsupplied) (v : Value)
    (hb : capacity * stride = b.length) :
    write u (.array item stride capacity) v b
      = ⟨onSlots stride ((v.items.take capacity).map (supplyItem u item)) (u.prepare b),
        b.length⟩ := by
  rw [write, onFront_min hb, slotCount_eq_capacity (le_of_eq hb), hb, Nat.min_self]
  rfl

/-- The slots of an array are seeded one by one. -/
theorem slice_seed_array {item : Layout} {stride capacity i : Nat} (hkeep : item.KeepsLength)
    (hb : capacity * stride = b.length) (hi : i < capacity) :
    Span.slice ⟨i * stride, stride⟩ (seed (.array item stride capacity) b)
      = seed item (Span.slice ⟨i * stride, stride⟩ b) := by
  have hslot : ∀ g ∈ List.replicate capacity fun slot => seed item slot, ∀ x : Bytes,
      x.length = stride → (g x).length = stride := by
    intro g hg x hx
    rw [List.eq_of_mem_replicate hg, hkeep.2, hx]
  rw [seed, slotCount_eq_capacity (le_of_eq hb), slice_onSlots hslot
    (by rw [List.length_replicate, hb]) (by rwa [List.length_replicate]), List.getElem_replicate]

theorem readsBack_array {item : Layout} {stride capacity : Nat} {items : List Value}
    (hkeep : item.KeepsLength) (hstride : item.fixedLength? = some stride)
    (hcount : items.length = capacity) (hnull : ∀ i ∈ items, i ≠ .null)
    (hitems : ∀ i ∈ items, ReadsBack .fixed item i) :
    ReadsBack pos (.array item stride capacity) (.list items) := by
  intro u b hb
  have hlength : capacity * stride = b.length := by
    rw [hb, slotLength_of_fixed rfl (by simp) (by simp)]
  have htake : (Value.items (.list items)).take capacity = items :=
    List.take_of_length_le (le_of_eq hcount)
  rw [write_array u _ hlength, htake]
  refine ⟨rfl, ?_⟩
  apply decode_array_onSlots
  · intro g hg x hx
    obtain ⟨i, -, rfl⟩ := List.mem_map.mp hg
    rw [length_supplyItem hkeep, hx]
  · rw [length_prepare, List.length_map, hcount, hlength]
  · rw [List.length_map, hcount]
  · rw [List.length_map]
  · intro i hi hi' slot hslot
    have hmem : items[i] ∈ items := List.getElem_mem hi'
    have hsize : slot.length = slotLength .fixed item items[i] := by
      rw [slotLength, freshLength, hstride, hslot, Option.getD_some]
    rw [List.getElem_map, supplyItem, Value.isNull_eq_false (hnull _ hmem),
      if_neg Bool.false_ne_true]
    exact (hitems _ hmem u slot hsize).2

/-- A packed array that is written to a slot of its own size writes its items one by one. -/
theorem write_packed {p : Primitive} {capacity : Nat} (u : Unsupplied) (v : Value)
    (hb : packedLength p capacity = b.length) :
    write u (.packed p capacity) v b
      = ⟨onSlots p.width ((v.items.take (slotCount p.width capacity b)).map fun i _ => p.write i)
          (zeros b.length), b.length⟩ := by
  rw [write, onFront_min hb, hb, Nat.min_self]

/-- As many items as the array has room for are read back. -/
theorem readsBack_packed {p : Primitive} {capacity : Nat} {items : List Value}
    (hcount : items.length ≤ capacity) (hsize : items.length * p.width = packedLength p capacity)
    (hitems : ∀ i ∈ items, p.Holds i) : ReadsBack pos (.packed p capacity) (.list items) := by
  intro u b hb
  have hlength : packedLength p capacity = b.length := by
    rw [hb, slotLength_of_fixed rfl (by simp) (by simp)]
  -- the size is a 64-bit number, so no offset wraps around
  have hbound : items.length * p.width < UInt64.size := by
    rw [hsize]
    exact Nat.mod_lt _ (by decide)
  have hslots : slotCount p.width capacity b = items.length := by
    rw [slotCount, if_neg (Nat.ne_of_gt p.width_pos), ← hlength, ← hsize,
      Nat.mul_div_cancel _ p.width_pos, Nat.min_eq_right hcount]
  have hwritten : write u (.packed p capacity) (.list items) b
      = ⟨onSlots p.width (items.map fun i _ => p.write i) (zeros b.length), b.length⟩ := by
    have htake : (Value.items (.list items)).take (slotCount p.width capacity b) = items := by
      rw [hslots]
      exact List.take_length
    rw [write_packed u _ hlength, htake]
  have hroom : items.length * p.width ≤ (zeros b.length).length := by
    rw [length_zeros, hsize, hlength]
  have hslots' : slotCount p.width capacity
      (onSlots p.width (items.map fun i _ => p.write i) (zeros b.length)) = items.length := by
    rw [← hslots]
    exact slotCount_congr (by rw [length_onSlots_write hroom, length_zeros])
  rw [hwritten]
  refine ⟨rfl, ?_⟩
  dsimp only
  rw [decode_packed, hslots']
  congr 1
  apply List.ext_getElem
  · rw [List.length_map, List.length_range]
  · intro i hi hi'
    have hoffset : packedOffset p i = i * p.width :=
      packedOffset_eq (lt_of_le_of_lt (Nat.mul_le_mul_right _ (by omega)) hbound)
    rw [List.getElem_map, List.getElem_range, hoffset, ← Primitive.read_take]
    refine (congrArg p.read (slice_onSlots_write hroom hi')).trans ?_
    exact Primitive.read_write (hitems _ (List.getElem_mem hi'))

/-! ## Chunks -/

/-- What is shown of the chunk of an item: it takes as many bytes as the item needs, and reads as
the item. -/
def ChunkReads (item : Layout) (i : Value) (chunk : Bytes) : Prop :=
  chunk.length = (if i.isNull then 0 else encodedLength item i) ∧ chunkValue item chunk = i

theorem chunkReads_null (item : Layout) : ChunkReads item .null [] := ⟨rfl, rfl⟩

/-- A value that needs at least one byte is read back from a chunk of the size that it needs. -/
theorem chunkReads_encodeOver {item : Layout} (hkeep : item.KeepsLength) {i : Value}
    (hnull : i ≠ .null) (hreads : ReadsBack .tight item i) (hpos : 0 < encodedLength item i)
    {slot : Bytes} (hslot : slot.length = encodedLength item i) :
    ChunkReads item i (encodeOver item i slot).value := by
  obtain ⟨hlength, hdecode⟩ := hreads.encodeOver hkeep hslot
  constructor
  · rw [hlength, hslot, Value.isNull_eq_false hnull, if_neg Bool.false_ne_true]
  · rw [chunkValue, if_neg (by omega), hdecode]

/-- Items that are all placed, each in a chunk that it is read back from. -/
theorem chunkReads_place {item : Layout} (hkeep : item.KeepsLength) {items : List Value}
    (hreads : ∀ i ∈ items, i ≠ .null → ReadsBack .tight item i)
    (hpos : ∀ i ∈ items, i ≠ .null → 0 < encodedLength item i)
    (h : needs (itemParts (encodedLength item) (encodeOver item) items) ≤ b.length) :
    List.Forall₂ (ChunkReads item) items
      (place (itemParts (encodedLength item) (encodeOver item) items) b).1 := by
  refine (place_map_full (allKeep_itemParts hkeep.encodeOver (encodedLength item) items) h).imp ?_
  rintro i chunk ⟨hmem, hchunk⟩
  by_cases hnull : i = .null
  · rw [hnull] at hchunk ⊢
    have hempty : chunk = [] := hchunk
    rw [hempty]
    exact chunkReads_null item
  · rw [Value.isNull_eq_false hnull, if_neg Bool.false_ne_true] at hchunk
    obtain ⟨slot, hslot, rfl⟩ := hchunk
    exact chunkReads_encodeOver hkeep hnull (hreads i hmem hnull) (hpos i hmem hnull) hslot

/-- Chunks that are read back make up the bytes that the items need. -/
theorem length_flatten_of_chunkReads {item : Layout} {items : List Value} {chunks : List Bytes}
    (h : List.Forall₂ (ChunkReads item) items chunks) : chunks.flatten.length
      = needs (itemParts (encodedLength item) (encodeOver item) items) := by
  rw [itemParts_encodeOver_needs]
  induction h with
  | nil => rfl
  | cons hchunk _ ih =>
    rw [List.flatten_cons, List.length_append, List.map_cons, List.sum_cons, ih, hchunk.1]

theorem map_chunkValue {item : Layout} {items : List Value} {chunks : List Bytes}
    (h : List.Forall₂ (ChunkReads item) items chunks) : chunks.map (chunkValue item) = items := by
  induction h with
  | nil => rfl
  | cons hchunk _ ih => rw [List.map_cons, ih, hchunk.2]

/-! ## Vectors and dicts -/

theorem readsBack_vector {item : Layout} {limit : Option Nat} {items : List Value}
    (hkeep : item.KeepsLength) (hcount : WithinCap limit items.length)
    (hreads : ∀ i ∈ items, i ≠ .null → ReadsBack .tight item i)
    (hpos : ∀ i ∈ items, i ≠ .null → 0 < encodedLength item i)
    (hsmall : encodedLength (.vector item limit) (.list items) < 2 ^ 32) :
    ReadsBack pos (.vector item limit) (.list items) := by
  intro u b hb
  have hadmitted : admitted limit (Value.items (.list items)) = items :=
    admitted_of_withinCap hcount
  have hneeds : encodedLength (.vector item limit) (.list items) = headerLength items.length
      + needs (itemParts (encodedLength item) (encodeOver item) items) := by
    rw [encodedLength, hadmitted, itemParts_encodeOver_needs]
  have hlength : b.length = headerLength items.length
      + needs (itemParts (encodedLength item) (encodeOver item) items) := by
    rw [hb, ← hneeds]
    cases pos <;> rfl
  have hchunks := chunkReads_place hkeep hreads hpos
    (b := b.drop (headerLength items.length)) (by rw [List.length_drop]; omega)
  have hfull := writeVector_full (encodedLength item) hkeep.encodeOver (le_of_eq hlength.symm)
  have himage : (vectorImage (place (itemParts (encodedLength item) (encodeOver item) items)
      (b.drop (headerLength items.length))).1).length = b.length := by
    rw [length_vectorImage, length_flatten_of_chunkReads hchunks, length_place_fst,
      length_itemParts, hlength]
  rw [write_vector, hadmitted, hfull]
  refine ⟨himage, ?_⟩
  dsimp only
  rw [decode_vectorImage item limit (by omega), map_chunkValue hchunks]

/-- The key is read back from every slot of its size. -/
def KeyReads (key : Layout) (keyLength : Nat) (name : String) : Prop :=
  ∀ slot : Bytes, slot.length = keyLength → keyText key (decode key (putKey key name slot)) = name

/-- A key that is a primitive is stored as the value that it is read as. -/
theorem putKey_primitive {p : Primitive} {slot : Bytes} (hslot : slot.length = p.width)
    (name : String) : putKey (.primitive p) name slot = p.write (.ofKey name) := by
  rw [putKey, encode, keyValue, write_primitive_slot _ _ hslot]

/-- Of the primitives that keys are told by, a key is the one of its value. -/
theorem keyText_primitive {p : Primitive} (hp : p.hasKeys = true) (v : Value) :
    keyText (.primitive p) v = v.toKey := by
  rw [keyText]
  intro y h
  cases h
  exact absurd hp (by decide)

/-- A canonical key is read back from its slot. -/
theorem CanonicalKey.keyReads {key : Layout} {keyLength : Nat}
    (hlength : key.fixedLength? = some keyLength) {name : String} (hname : CanonicalKey key name) :
    KeyReads key keyLength name := by
  intro slot hslot
  cases key with
  | text cap =>
    have hfixed : slot.length = slotLength .fixed (.text cap) (.text name) := by
      rw [slotLength, freshLength, hlength, hslot, Option.getD_some]
    have hread := (readsBack_text hname.1 hname.2 .cleared slot hfixed).2
    have hput : putKey (.text cap) name slot
        = (write .cleared (.text cap) (.text name) slot).bytes := rfl
    rw [hput, hread]
    rfl
  | primitive p =>
    obtain ⟨hkeys, x, hx, rfl⟩ := hname
    cases hlength
    rw [putKey_primitive hslot, Primitive.write_ofKey hkeys hx, decode, Primitive.read_write hx,
      keyText_primitive hkeys]
  | _ => exact hname.elim

/-- Functions that agree on related elements give the same list. -/
theorem map_eq_map_of_forall₂ {α β γ : Type} {R : α → β → Prop} {xs : List α} {ys : List β}
    {f : α → γ} {g : β → γ} (h : List.Forall₂ R xs ys)
    (heq : ∀ x ∈ xs, ∀ y, R x y → g y = f x) : ys.map g = xs.map f := by
  induction h with
  | nil => rfl
  | cons hxy _ ih =>
    rw [List.map_cons, List.map_cons, heq _ List.mem_cons_self _ hxy,
      ih fun x hx => heq x (List.mem_cons_of_mem _ hx)]

theorem readsBack_dict {key value : Layout} {keyLength : Nat} {entries : List (String × Value)}
    (hkeepKey : key.KeepsLength) (hkeep : value.KeepsLength) (hordered : Value.Ordered entries)
    (hkeys : ∀ e ∈ entries, KeyReads key keyLength e.1)
    (hreads : ∀ e ∈ entries, e.2 ≠ .null → ReadsBack .tight value e.2)
    (hpos : ∀ e ∈ entries, e.2 ≠ .null → 0 < encodedLength value e.2)
    (hsmall : encodedLength (.dict key keyLength value) (.record entries) < 2 ^ 32) :
    ReadsBack pos (.dict key keyLength value) (.record entries) := by
  intro u b hb
  have hputKey := length_putKey hkeepKey keyLength
  have hneeds : encodedLength (.dict key keyLength value) (.record entries)
      = dictOverhead keyLength entries.length
        + needs (itemParts (encodedLength value) (encodeOver value) (entries.map (·.2))) := by
    rw [encodedLength, itemParts_encodeOver_needs, List.length_map]
    rfl
  have hroom : b.length = dictOverhead keyLength entries.length
      + needs (itemParts (encodedLength value) (encodeOver value) (entries.map (·.2))) := by
    rw [hb, ← hneeds]
    cases pos <;> rfl
  have hchunks : List.Forall₂ (ChunkReads value) (entries.map (·.2))
      (placeValues keyLength (encodedLength value) (encodeOver value) entries b).1 := by
    apply chunkReads_place hkeep
    · intro i hi
      obtain ⟨e, he, rfl⟩ := List.mem_map.mp hi
      exact hreads e he
    · intro i hi
      obtain ⟨e, he, rfl⟩ := List.mem_map.mp hi
      exact hpos e he
    · unfold dictOverhead at hroom
      rw [List.length_drop, List.length_take, valueRoom]
      omega
  have hoverhead : dictOverhead keyLength entries.length ≤ b.length := by omega
  have hkeyRoom := length_keyRoom (encodedLength value) (encodeOver value) hoverhead
  have hall := length_of_mem_placeKeys (encodedLength value) (encodeOver value) hputKey hoverhead
  -- the keys that were written read as the names of the entries
  have hnames : (placeKeys keyLength (putKey key) (encodedLength value) (encodeOver value) entries
      b).map (fun k => keyText key (decode key k)) = entries.map (·.1) := by
    have hslots : (entries.map fun e => putKey key e.1).length * keyLength
        ≤ (keyRoom keyLength (encodedLength value) (encodeOver value) entries b).length := by
      rw [List.length_map]
      omega
    have hspec := rewriteSlots_spec hslots
    rw [← placeKeys, List.forall₂_map_left_iff] at hspec
    apply map_eq_map_of_forall₂ hspec
    rintro e he k ⟨slot, hslot, rfl⟩
    exact hkeys e he slot hslot
  have himage : (dictImage (placeValues keyLength (encodedLength value) (encodeOver value) entries
      b).1 (placeKeys keyLength (putKey key) (encodedLength value) (encodeOver value) entries
        b)).length = b.length := by
    rw [length_dictImage, length_vectorImage, length_flatten_of_chunkReads hchunks,
      length_placeValues_fst, length_flatten_of_length_eq hall, length_placeKeys, hroom, dictOverhead]
    omega
  have hcount : (placeKeys keyLength (putKey key) (encodedLength value) (encodeOver value) entries
      b).length = (placeValues keyLength (encodedLength value) (encodeOver value) entries
        b).1.length := by
    rw [length_placeKeys, length_placeValues_fst]
  have hzip : (entries.map (·.1)).zip (entries.map (·.2)) = entries := by
    have hunzip := List.zip_unzip entries
    rw [List.unzip_eq_map] at hunzip
    exact hunzip
  rw [write_dict, show Value.fields (.record entries) = entries from rfl,
    writeDict_full hkeep.encodeOver hputKey (by omega)]
  refine ⟨himage, ?_⟩
  dsimp only
  rw [decode_dictImage key value (by omega) hcount hall, hnames, map_chunkValue hchunks, hzip,
    Value.setNew_of_ordered [] hordered, List.nil_append]

/-! ## Records -/

variable {fields : List (Field Layout)} {entries : List (String × Value)}

/-- A record is read back if each of its fields is. -/
theorem decode_record_eq {layout : Layout} (hfields : layout.fields? = some fields)
    (hnodup : (fields.map Field.name).Nodup) (hordered : Value.Ordered entries)
    (hnames : ∀ name ∈ entries.map (·.1), name ∈ fields.map Field.name)
    (hvalues : ∀ f ∈ fields, fieldValue? layout b f = entries.lookup f.name) :
    decode layout b = .record entries := by
  rw [decode_record hfields]
  congr 1
  apply Value.Ordered.ext (ordered_decodedFields layout b) hordered
  intro name
  by_cases hname : name ∈ fields.map Field.name
  · obtain ⟨f, hf, rfl⟩ := List.mem_map.mp hname
    rw [lookup_decodedFields hfields hnodup hf, hvalues f hf]
  · rw [lookup_decodedFields_eq_none hfields hnodup hname,
      Value.lookup_eq_none fun hin => hname (hnames name hin)]

theorem get?_record {name : String} {x : Value} (h : entries.lookup name = some x)
    (hnull : x ≠ .null) : (Value.record entries).get? name = some x := by
  have heq : (Value.record entries).get? name
      = (entries.lookup name).filter fun field => !field.isNull := rfl
  rw [heq, h, Option.filter_some_pos]
  rw [Value.isNull_eq_false hnull]
  rfl

theorem get?_record_eq_none {name : String} (h : entries.lookup name = none) :
    (Value.record entries).get? name = none := by
  have heq : (Value.record entries).get? name
      = (entries.lookup name).filter fun field => !field.isNull := rfl
  rw [heq, h, Option.filter_none]

/-- A field at a fixed place is read back from its place. -/
theorem decode_slice_writeFixed (harranged : Arranged 0 0 fields)
    (hkeep : ∀ f ∈ fields, f.layout.KeepsLength) (hb : b.length = fixedRegion fields)
    {f : Field Layout} (hf : f ∈ fields) {span : Span} (hplace : f.place = .fixed span) {x : Value}
    (hx : v.get? f.name = some x) (hreads : ReadsBack .fixed f.layout x) :
    decode f.layout (span.slice (writeFixed fields v b)) = x := by
  have hfit := allFit_of_length hb
  rw [slice_writeFixed harranged hkeep hfit hf hplace hx]
  refine (hreads .kept _ ?_).2
  rw [Span.length_slice_of_fits (hfit f hf span hplace), slotLength, freshLength,
    harranged.length_eq hf hplace, Option.getD_some]

/-- An object that is written to a slot of its own size takes the whole slot. -/
theorem write_object (u : Unsupplied) (v : Value) (hb : fixedRegion fields = b.length) :
    write u (.object fields) v b = ⟨writeFixed fields v (u.prepare b), b.length⟩ := by
  have hfront := onFront_min hb fun r => writeFixed fields v (u.prepare r)
  rw [hb, Nat.min_self] at hfront
  rw [write, if_neg (by omega), hb, hfront]

theorem readsBack_object (harranged : Arranged 0 0 fields)
    (hfixed : ∀ f ∈ fields, f.ordinal? = none) (hnodup : (fields.map Field.name).Nodup)
    (hkeep : ∀ f ∈ fields, f.layout.KeepsLength) (hordered : Value.Ordered entries)
    (hnames : ∀ name, name ∈ entries.map (·.1) ↔ name ∈ fields.map Field.name)
    (hnull : ∀ f ∈ fields, ∀ x, entries.lookup f.name = some x → x ≠ .null)
    (hreads : ∀ f ∈ fields, ∀ x, entries.lookup f.name = some x → ReadsBack .fixed f.layout x) :
    ReadsBack pos (.object fields) (.record entries) := by
  intro u b hb
  have hlength : fixedRegion fields = b.length := by
    rw [hb, slotLength_of_fixed rfl (by simp) (by simp)]
  rw [write_object u _ hlength]
  refine ⟨rfl, ?_⟩
  apply decode_record_eq rfl hnodup hordered fun name hname => (hnames name).mp hname
  intro f hf
  obtain ⟨x, hx⟩ := Value.exists_lookup ((hnames f.name).mpr (List.mem_map_of_mem hf))
  cases hplace : f.place with
  | optional k =>
    have hnone := hfixed f hf
    rw [Field.ordinal?, hplace] at hnone
    exact absurd hnone (by simp)
  | fixed span =>
    have hfits : span.Fits (writeFixed fields (.record entries) (u.prepare b)) := by
      rw [Span.Fits, length_writeFixed hkeep, length_prepare, ← hlength]
      exact stop_le_fixedRegion hf hplace
    rw [fieldValue?, fixedValue?_of_fits hplace hfits, hx,
      decode_slice_writeFixed harranged hkeep (by rw [length_prepare, hlength]) hf hplace
        (get?_record hx (hnull f hf x hx)) (hreads f hf x hx)]

/-- What is shown of the chunk of an optional field. -/
def OptionalReads (entries : List (String × Value)) (f : Field Layout) (chunk : Bytes) : Prop :=
  chunk.length = need (optionalPart (.record entries) f)
    ∧ (if chunk.length = 0 then none else some (decode f.layout chunk)) = entries.lookup f.name

/-- The part of an optional field of a record, if it asks for any bytes. -/
theorem optionalPart_record {f : Field Layout} {x : Value} (hlookup : entries.lookup f.name = some x)
    (hnull : x ≠ .null) (hpos : 0 < capped f.maxLength (encodedLength f.layout x)) :
    optionalPart (.record entries) f
      = some ⟨capped f.maxLength (encodedLength f.layout x), encodeOver f.layout x⟩ := by
  rw [optionalPart, Field.pick?, get?_record hlookup hnull, Option.some_or, Option.bind_some,
    if_pos hpos]

/-- Optional fields that are all placed, each in a chunk that it is read back from. -/
theorem optionalReads_place (hkeep : ∀ f ∈ fields, f.layout.KeepsLength)
    (hnull : ∀ f ∈ fields, ∀ x, entries.lookup f.name = some x → x ≠ .null)
    (hdefault : ∀ f ∈ optionals fields, entries.lookup f.name = none → f.default = none)
    (hreads : ∀ f ∈ optionals fields, ∀ x, entries.lookup f.name = some x →
      ReadsIn (capped f.maxLength (encodedLength f.layout x)) f.layout x)
    (hpos : ∀ f ∈ optionals fields, ∀ x, entries.lookup f.name = some x →
      0 < capped f.maxLength (encodedLength f.layout x))
    (h : needs (optionalParts fields (.record entries)) ≤ b.length) :
    List.Forall₂ (OptionalReads entries) (optionals fields)
      (place (optionalParts fields (.record entries)) b).1 := by
  refine (place_map_full (allKeep_optionalParts hkeep (.record entries)) h).imp ?_
  rintro f chunk ⟨hmem, hchunk⟩
  have hf := mem_of_mem_optionals hmem
  unfold OptionalReads
  cases hlookup : entries.lookup f.name with
  | none =>
    -- a field that is missing and has no default leaves a hole
    have hpart : optionalPart (.record entries) f = none := by
      rw [optionalPart, Field.pick?, get?_record_eq_none hlookup, hdefault f hmem hlookup]
      rfl
    rw [hpart] at hchunk ⊢
    have hempty : chunk = [] := hchunk
    rw [hempty]
    exact ⟨rfl, rfl⟩
  | some x =>
    -- a field that is there gets a slot of the size that it needs, and is read back from it
    have hneed := hpos f hmem x hlookup
    rw [optionalPart_record hlookup (hnull f hf x hlookup) hneed] at hchunk ⊢
    obtain ⟨slot, hslot, rfl⟩ := hchunk
    obtain ⟨hsize, hdecode⟩ := (hreads f hmem x hlookup).encodeOver (hkeep f hf) hslot
    dsimp only at hslot ⊢
    rw [hsize, hslot, if_neg (by omega), hdecode, need_some]
    exact ⟨rfl, rfl⟩

/-- Such chunks make up the bytes that the optional fields need. -/
theorem length_flatten_of_optionalReads {fs : List (Field Layout)} {chunks : List Bytes}
    (h : List.Forall₂ (OptionalReads entries) fs chunks) :
    chunks.flatten.length = needs (fs.map (optionalPart (.record entries))) := by
  induction h with
  | nil => rfl
  | cons hchunk _ ih =>
    rw [List.flatten_cons, List.length_append, List.map_cons, needs_cons, ih, hchunk.1]

theorem readsBack_map (harranged : Arranged 0 0 fields) (hnodup : (fields.map Field.name).Nodup)
    (hkeep : ∀ f ∈ fields, f.layout.KeepsLength) (hordered : Value.Ordered entries)
    (hnames : ∀ name ∈ entries.map (·.1), name ∈ fields.map Field.name)
    (hpresent : ∀ f ∈ fields, f.ordinal? = none ∨ f.default ≠ none → f.name ∈ entries.map (·.1))
    (hnull : ∀ f ∈ fields, ∀ x, entries.lookup f.name = some x → x ≠ .null)
    (hfixed : ∀ f ∈ fields, f.ordinal? = none → ∀ x, entries.lookup f.name = some x →
      ReadsBack .fixed f.layout x)
    (hoptional : ∀ f ∈ fields, f.ordinal? ≠ none → ∀ x, entries.lookup f.name = some x →
      ReadsIn (capped f.maxLength (encodedLength f.layout x)) f.layout x)
    (hpos : ∀ f ∈ fields, f.ordinal? ≠ none → ∀ x, entries.lookup f.name = some x →
      0 < capped f.maxLength (encodedLength f.layout x))
    (hsmall : encodedLength (.map fields) (.record entries) < 2 ^ 32) :
    ReadsBack pos (.map fields) (.record entries) := by
  intro u b hb
  have hneeds : encodedLength (.map fields) (.record entries)
      = dataStart fields + needs (optionalParts fields (.record entries)) := by
    rw [encodedLength, needs_optionalParts]
  have hroom : b.length = dataStart fields + needs (optionalParts fields (.record entries)) := by
    rw [hb, ← hneeds]
    cases pos <;> rfl
  have hregion : fixedRegion fields ≤ b.length :=
    le_trans (fixedRegion_le_dataStart fields) (by omega)
  have hchunks := optionalReads_place (b := b.drop (dataStart fields)) hkeep hnull
    (fun f hf hlookup => by
      -- a field with a default is never missing, so the default is not used
      by_contra hdefault
      obtain ⟨x, hx⟩ := Value.exists_lookup
        (hpresent f (mem_of_mem_optionals hf) (Or.inr hdefault))
      exact absurd (hlookup.symm.trans hx) (by simp))
    (fun f hf => hoptional f (mem_of_mem_optionals hf) (ordinal?_ne_none_of_mem_optionals hf))
    (fun f hf => hpos f (mem_of_mem_optionals hf) (ordinal?_ne_none_of_mem_optionals hf))
    (by rw [List.length_drop]; omega)
  have hfixedLength := length_fixedBytes (u := u) (v := .record entries) hkeep hregion
  -- the chunks are known by what is read from them
  generalize hchunksEq : (place (optionalParts fields (.record entries))
    (b.drop (dataStart fields))).1 = chunks at hchunks
  have hcount : chunks.length = optionalCount fields := by
    rw [← hchunks.length_eq, length_optionals]
  have hflatten : chunks.flatten.length = needs (optionalParts fields (.record entries)) :=
    length_flatten_of_optionalReads hchunks
  have himage : (mapImage (fixedBytes u fields (.record entries) b) chunks).length = b.length := by
    rw [length_mapImage, hfixedLength, hcount, ← dataStart_eq, hflatten, hroom]
  rw [write_map harranged hkeep (by omega) rfl, hchunksEq]
  refine ⟨himage, ?_⟩
  dsimp only
  apply decode_record_eq rfl hnodup hordered hnames
  intro f hf
  cases hplace : f.place with
  | fixed span =>
    have hnone : f.ordinal? = none := by rw [Field.ordinal?, hplace]
    obtain ⟨x, hx⟩ := Value.exists_lookup (hpresent f hf (Or.inl hnone))
    rw [fieldValue?_mapImage_fixed hfixedLength hf hplace, hx, fixedBytes,
      decode_slice_writeFixed harranged hkeep ?_ hf hplace (get?_record hx (hnull f hf x hx))
        (hfixed f hf hnone x hx)]
    rw [length_prepare, List.length_take, Nat.min_eq_left hregion]
  | optional k =>
    have hkChunks : k < chunks.length := hcount ▸ harranged.ordinal_lt hf hplace
    have hk : k < (optionals fields).length := by
      rw [length_optionals]
      exact harranged.ordinal_lt hf hplace
    have hread := hchunks.get hk hkChunks
    rw [List.get_eq_getElem, List.get_eq_getElem, harranged.getElem_optionals hf hplace hk] at hread
    rw [fieldValue?_mapImage_optional hfixedLength hcount (by omega) hplace hkChunks]
    exact hread.2

/-! ## Round trips -/

/-- An item needs no more bytes than all items do. -/
theorem encodedLength_le_needs (item : Layout) {items : List Value} {i : Value} (hi : i ∈ items)
    (hnull : i ≠ .null) :
    encodedLength item i ≤ needs (itemParts (encodedLength item) (encodeOver item) items) := by
  rw [itemParts_encodeOver_needs]
  apply List.le_sum_of_mem
  rw [List.mem_map]
  exact ⟨i, hi, by rw [Value.isNull_eq_false hnull, if_neg Bool.false_ne_true]⟩

theorem encodedLength_le_vector {item : Layout} {limit : Option Nat} {i : Value}
    (hi : i ∈ admitted limit v.items) (hnull : i ≠ .null) :
    encodedLength item i ≤ encodedLength (.vector item limit) v := by
  have hle := encodedLength_le_needs item hi hnull
  rw [itemParts_encodeOver_needs] at hle
  rw [encodedLength]
  exact le_trans hle (Nat.le_add_left _ _)

theorem encodedLength_le_dict {key value : Layout} {keyLength : Nat} {e : String × Value}
    (he : e ∈ v.fields) (hnull : e.2 ≠ .null) :
    encodedLength value e.2 ≤ encodedLength (.dict key keyLength value) v := by
  have hle := encodedLength_le_needs value (List.mem_map_of_mem he) hnull
  rw [itemParts_encodeOver_needs] at hle
  rw [encodedLength]
  exact le_trans hle (Nat.le_add_left _ _)

/-- A fixed place is no longer than the fixed region. -/
theorem slotLength_le_fixedRegion (harranged : Arranged 0 0 fields) {f : Field Layout}
    (hf : f ∈ fields) (hfixed : f.ordinal? = none) (x : Value) :
    slotLength .fixed f.layout x ≤ fixedRegion fields := by
  cases hplace : f.place with
  | optional k =>
    rw [Field.ordinal?, hplace] at hfixed
    exact absurd hfixed (by simp)
  | fixed span =>
    have hstop := stop_le_fixedRegion hf hplace
    unfold Span.stop at hstop
    rw [slotLength, freshLength, harranged.length_eq hf hplace, Option.getD_some]
    omega

theorem fixedRegion_le_map (fields : List (Field Layout)) (v : Value) :
    fixedRegion fields ≤ encodedLength (.map fields) v := by
  rw [encodedLength]
  exact le_trans (fixedRegion_le_dataStart fields) (Nat.le_add_right _ _)

theorem encodedLength_le_map {f : Field Layout} (hf : f ∈ fields) (hoptional : f.ordinal? ≠ none)
    {x : Value} (hx : f.pick? v = some x) :
    capped f.maxLength (encodedLength f.layout x) ≤ encodedLength (.map fields) v := by
  have hle : need (optionalPart v f) ≤ needs (optionalParts fields v) := by
    apply List.le_sum_of_mem
    apply List.mem_map_of_mem
    apply List.mem_map_of_mem
    rw [optionals, List.mem_filter]
    exact ⟨hf, Option.isSome_iff_ne_none.mpr hoptional⟩
  rw [need_optionalPart, hx, Option.elim_some, needs_optionalParts] at hle
  rw [encodedLength.eq_def (.map fields)]
  exact le_trans hle (Nat.le_add_left _ _)

/-- **Canonical values.**  A canonical value takes the whole of a slot of its own size, and is read
back from it. -/
theorem Canonical.readsBack (h : Canonical pos layout v) (hwf : layout.WellFormed)
    (hsmall : slotLength pos layout v < 2 ^ 32) : ReadsBack pos layout v := by
  -- along the value: what is shown of its parts applies since none is longer than the whole
  induction h with
  | primitive hv => exact readsBack_primitive hv
  | text hzero hcap => exact readsBack_text hzero hcap
  | @blobFixed cap content hcap =>
    refine readsBack_blob (WithinCap.of_eq hcap) ?_
    rw [slotLength, freshLength, fixedLength?, encodedLength]
    cases cap with
    | none => rfl
    | some n => exact (hcap n rfl).symm
  | @blobTight cap content hcap =>
    refine readsBack_blob hcap ?_
    rw [slotLength, encodedLength]
    exact capped_of_withinCap hcap
  | @array pos item stride capacity items hcount hitems ih =>
    cases hwf with
    | array _ hitem hstride =>
      refine readsBack_array hitem.keepsLength hstride hcount (fun i hi => (hitems i hi).ne_null) ?_
      intro i hi
      refine ih i hi hitem ?_
      have hpos : 0 < capacity := hcount ▸ List.length_pos_of_mem hi
      rw [slotLength_of_fixed (n := capacity * stride) rfl (by simp) (by simp)] at hsmall
      have hle : stride ≤ capacity * stride := Nat.le_mul_of_pos_left _ hpos
      rw [slotLength, freshLength, hstride, Option.getD_some]
      omega
  | packed hcount hsize hitems =>
    refine readsBack_packed (le_of_eq hcount) ?_ hitems
    rw [hcount]
    exact (packedLength_eq (lt_trans hsize (by decide))).symm
  | @vector pos item limit items hcount hitems hpos ih =>
    cases hwf with
    | vector _ hitem =>
      rw [slotLength_of_variable rfl] at hsmall
      refine readsBack_vector hitem.keepsLength hcount ?_ hpos hsmall
      intro i hi hnull
      have hadmitted : i ∈ admitted limit (Value.items (.list items)) := by
        rwa [show Value.items (.list items) = items from rfl, admitted_of_withinCap hcount]
      exact ih i hi hnull hitem
        (lt_of_le_of_lt (encodedLength_le_vector hadmitted hnull) hsmall)
  | @dict pos key value keyLength entries hordered hkeys hvalues hpos ih =>
    cases hwf with
    | dict hkey hlength hvalue =>
      rw [slotLength_of_variable rfl] at hsmall
      refine readsBack_dict hkey.keepsLength hvalue.keepsLength hordered
        (fun e he => (hkeys e he).keyReads hlength) ?_ hpos hsmall
      intro e he hnull
      have hle : encodedLength value e.2
          ≤ encodedLength (.dict key keyLength value) (.record entries) :=
        encodedLength_le_dict he hnull
      exact ih e he hnull hvalue (lt_of_le_of_lt hle hsmall)
  | @object pos fields entries hordered hnames hparts ih =>
    cases hwf with
    | object hwfParts harranged hfixed hnodup =>
      refine readsBack_object harranged hfixed hnodup (fun f hf => (hwfParts f hf).keepsLength)
        hordered hnames (fun f hf x hx => (hparts f hf x hx).ne_null) ?_
      intro f hf x hx
      refine ih f hf x hx (hwfParts f hf) ?_
      rw [slotLength_of_fixed (n := fixedRegion fields) rfl (by simp) (by simp)] at hsmall
      exact lt_of_le_of_lt (slotLength_le_fixedRegion harranged hf (hfixed f hf) x) hsmall
  | @map pos fields entries hordered hnames hpresent hfixed hoptional hlength ihfixed ihoptional =>
    cases hwf with
    | map hwfParts harranged hnodup =>
      rw [slotLength_of_variable rfl] at hsmall
      have hnull : ∀ f ∈ fields, ∀ x, entries.lookup f.name = some x → x ≠ .null := by
        intro f hf x hx
        by_cases hnone : f.ordinal? = none
        · exact (hfixed f hf hnone x hx).ne_null
        · exact (hoptional f hf hnone x hx).ne_null
      -- an optional field is not cut off, so it gets a slot of the size that it needs
      have hneed : ∀ f ∈ fields, f.ordinal? ≠ none → ∀ x, entries.lookup f.name = some x →
          0 < encodedLength f.layout x
            ∧ capped f.maxLength (encodedLength f.layout x) = encodedLength f.layout x := by
        intro f hf hsome x hx
        obtain ⟨hpos, hcap⟩ := hlength f hf hsome x hx
        exact ⟨hpos, capped_of_withinCap hcap⟩
      refine readsBack_map harranged hnodup (fun f hf => (hwfParts f hf).keepsLength)
        hordered hnames hpresent hnull ?_ ?_ ?_ hsmall
      · intro f hf hnone x hx
        refine ihfixed f hf hnone x hx (hwfParts f hf) ?_
        have hle := slotLength_le_fixedRegion harranged hf hnone x
        exact lt_of_le_of_lt (le_trans hle (fixedRegion_le_map fields _)) hsmall
      · intro f hf hsome x hx
        rw [(hneed f hf hsome x hx).2]
        refine ihoptional f hf hsome x hx (hwfParts f hf) ?_
        have hpick : f.pick? (.record entries) = some x := by
          rw [Field.pick?, get?_record hx (hnull f hf x hx), Option.some_or]
        have hle := encodedLength_le_map hf hsome hpick
        rw [(hneed f hf hsome x hx).2] at hle
        exact lt_of_le_of_lt hle hsmall
      · intro f hf hsome x hx
        obtain ⟨hpos, heq⟩ := hneed f hf hsome x hx
        omega

/-- **Round trip.**  A canonical value is read back from its bytes. -/
theorem decode_toBytes (hlayout : layout.IsCompiled) (hv : Canonical .fixed layout v)
    (hsmall : freshLength layout v < 2 ^ 32) : decode layout (toBytes layout v) = v := by
  have hwf := hlayout.wellFormed
  exact ((hv.readsBack hwf hsmall).encodeOver hwf.keepsLength (length_zeros _)).2

/-- A number and a vector with a hole, in a map whose third field is absent. -/
theorem decode_toBytes_tagged :
    let layout : Layout := .map [⟨"id", .primitive .int32, .fixed ⟨0, 4⟩, none, none⟩,
      ⟨"name", .text none, .optional 0, none, none⟩,
      ⟨"tags", .vector (.text none) none, .optional 1, none, none⟩]
    let v : Value := .record [("id", .int (-7)), ("tags", .list [.text "ab", .null])]
    decode layout (toBytes layout v) = v := by
  intro layout v
  have hcompiled : layout.IsCompiled := .of_eval ⟨0⟩ (.object
    [("type", .text "object"), ("btype", .text "map"), ("required", .list [.text "id"]),
      ("properties", .object [("id", .object [("type", .text "integer")]),
        ("name", .object [("type", .text "string")]),
        ("tags", .object [("type", .text "array"), ("btype", .text "vector"),
          ("items", .object [("type", .text "string")])])])]) (by cbv)
  have htext : Canonical .tight (.text none) (.text "ab") := .text (by decide) (by rintro _ ⟨⟩)
  have htags : Canonical .tight (.vector (.text none) none) (.list [.text "ab", .null]) := by
    have hitem : ∀ i ∈ [Value.text "ab", .null], i ≠ .null → i = .text "ab" := by
      rintro i hi hnull
      rcases List.mem_cons.mp hi with rfl | hi
      · rfl
      · exact absurd (List.mem_singleton.mp hi) hnull
    refine .vector (by rintro _ ⟨⟩) ?_ ?_
    · intro i hi hnull
      rw [hitem i hi hnull]
      exact htext
    · intro i hi hnull
      rw [hitem i hi hnull]
      decide
  refine decode_toBytes hcompiled ?_ (by decide)
  refine .map (by unfold Value.Ordered; decide) (by decide) (by decide) ?_ ?_ ?_
  · intro f hf hnone x hx
    rcases List.mem_cons.mp hf with rfl | hf
    · obtain rfl : Value.int (-7) = x := Option.some.inj hx
      exact .primitive ⟨-7, _, _, rfl, rfl, by decide, by decide⟩
    rcases List.mem_cons.mp hf with rfl | hf
    · cases hnone
    · rw [List.mem_singleton.mp hf] at hnone
      cases hnone
  · intro f hf hsome x hx
    rcases List.mem_cons.mp hf with rfl | hf
    · exact absurd rfl hsome
    rcases List.mem_cons.mp hf with rfl | hf
    · cases hx
    · rw [List.mem_singleton.mp hf] at hx ⊢
      obtain rfl : Value.list [.text "ab", .null] = x := Option.some.inj hx
      exact htags
  · intro f hf hsome x hx
    rcases List.mem_cons.mp hf with rfl | hf
    · exact absurd rfl hsome
    rcases List.mem_cons.mp hf with rfl | hf
    · cases hx
    · rw [List.mem_singleton.mp hf] at hx ⊢
      obtain rfl : Value.list [.text "ab", .null] = x := Option.some.inj hx
      exact ⟨by decide, by rintro _ ⟨⟩⟩

end Layout

end BinarySchema
