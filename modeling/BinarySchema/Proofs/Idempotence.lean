/-
# Storing a second time

Storing a value cuts off what is too long, drops what is not declared, fills in what is missing,
and takes everything else as what the layout expects.  Doing so a second time changes nothing more
(`normalize_normalize`), provided that no text of the layout is given a blob or a null character,
that no optional field has a default and only texts and blobs are cut off there, and that there are
no floating-point numbers.

It is enough that what has been read is read back from a slot of its own size.  In slots of fixed
size it is (`WellFormed.readsIn_encodeOver`).  In a slot that is as long as its value needs, what is
read may need fewer bytes, since the keys of a dict can become equal, but it needs some if the value
does, and so does not become a hole (`Replaces`).  This passes from the parts of a vector, a dict or
a map to the whole (`WellFormed.settles`).
-/
import BinarySchema.Proofs.Holes
import BinarySchema.Proofs.Settled

namespace BinarySchema

/-- The text has no null character. -/
def Text.NulFree (s : String) : Prop := Char.ofNat 0 ∉ s.toList

instance (s : String) : Decidable (Text.NulFree s) :=
  inferInstanceAs (Decidable (Char.ofNat 0 ∉ s.toList))

namespace Layout

variable {layout item key value : Layout} {v r x : Value} {b content slot chunk : Bytes}
  {cap m : Option Nat} {n keyLength : Nat} {f : Field Layout} {fields : List (Field Layout)}
  {items : List Value} {fixed : Bytes} {chunks : List Bytes}

/-! ## Keys -/

/-- What a slot holds of a key that is a text or blob. -/
theorem putKey_content (hlayout : key.fixedLength? = some keyLength) (hcontent : key.IsContent)
    (name : String) (hslot : slot.length = keyLength) :
    putKey key name slot = fitted (Text.utf8 name) keyLength := by
  have hname : Value.bytes (.text name) = Text.utf8 name := rfl
  cases key with
  | text cap =>
    have hcap : cap = some keyLength := hlayout
    rw [putKey, keyValue, encode, write, hname,
      writeContent_eq (by rw [hcap, hslot, Option.getD_some]), hslot]
    rintro p ⟨⟩
  | blob cap =>
    have hcap : cap = some keyLength := hlayout
    rw [putKey, keyValue, encode, write, hname,
      writeContent_eq (by rw [hcap, hslot, Option.getD_some]), hslot]
    rintro p ⟨⟩
  | _ => exact hcontent.elim

/-- Zeros behind a text are null characters, so what a slot holds of a text is a text that has been
cut off. -/
theorem exists_fitted_eq_take (s : String) (n : Nat) :
    ∃ t, n ≤ (Text.utf8 t).length ∧ fitted (Text.utf8 s) n = (Text.utf8 t).take n := by
  have hnuls : (List.replicate n (Char.ofNat 0)).flatMap String.utf8EncodeChar = zeros n := by
    induction n with
    | zero => rfl
    | succ n ih =>
      rw [List.replicate_succ, List.flatMap_cons, ih]
      rfl
  have hutf8 : Text.utf8 (String.ofList (s.toList ++ List.replicate n (Char.ofNat 0)))
      = Text.utf8 s ++ zeros n := by
    rw [Text.utf8, String.toList_ofList, List.flatMap_append, hnuls, Text.utf8]
  refine ⟨String.ofList (s.toList ++ List.replicate n (Char.ofNat 0)), ?_, ?_⟩
  · rw [hutf8, List.length_append, length_zeros]
    exact Nat.le_add_left _ _
  · rw [hutf8, List.take_append, fitted, zeros, zeros, List.take_replicate,
      Nat.min_eq_left (Nat.sub_le _ _)]

/-- The text that a slot of a blob reads as is read again from such a slot. -/
theorem ofUtf8_fitted (s : String) (n : Nat) :
    Text.ofUtf8 (fitted (Text.utf8 (Text.ofUtf8 (fitted (Text.utf8 s) n))) n)
      = Text.ofUtf8 (fitted (Text.utf8 s) n) := by
  obtain ⟨t, hroom, ht⟩ := exists_fitted_eq_take s n
  have hcut := Text.le_length_utf8_cut hroom
  have hagain := Text.cut_cut t n
  rw [ht, ← Text.cut, fitted_of_le hcut, ← Text.cut, hagain]

/-- **Keys.**  What is read of a key that has been written is read back from its slot. -/
theorem keyReads_keyText (hwf : key.WellFormed) (hlayout : key.fixedLength? = some keyLength)
    (hfloats : key.FloatFree) (name : String) (hslot : slot.length = keyLength) :
    KeyReads key keyLength (keyText key (decode key (putKey key name slot))) := by
  cases hwf with
  | primitive p =>
    have hkeys := hfloats.hasKeys
    apply CanonicalKey.keyReads hlayout
    refine ⟨hkeys, _, Primitive.holds_read hkeys (putKey (.primitive p) name slot), ?_⟩
    rw [decode, keyText]
    rintro x ⟨⟩
    exact absurd hkeys (by decide)
  | text cap =>
    have hread : ∀ name (slot : Bytes), slot.length = keyLength →
        keyText (.text cap) (decode (.text cap) (putKey (.text cap) name slot))
          = contentText (fitted (Text.utf8 name) keyLength) := fun name slot hslot => by
      rw [putKey_content hlayout True.intro name hslot, decode]
      rfl
    intro slot' hslot'
    rw [hread _ _ hslot', hread _ _ hslot, contentText_fitted_again]
  | blob cap =>
    have hread : ∀ name (slot : Bytes), slot.length = keyLength →
        keyText (.blob cap) (decode (.blob cap) (putKey (.blob cap) name slot))
          = Text.ofUtf8 (fitted (Text.utf8 name) keyLength) := fun name slot hslot => by
      have hcap : cap = some keyLength := hlayout
      rw [putKey_content hlayout True.intro name hslot, decode, contentBytes, hcap, Option.getD_some,
        List.take_of_length_le (le_of_eq (length_fitted _ _))]
      rfl
    intro slot' hslot'
    rw [hread _ _ hslot', hread _ _ hslot, ofUtf8_fitted]
  -- anything else reads as the empty key, whatever is stored for it
  | array capacity hitem hstride =>
    intro slot' _
    rw [decode, decode]
    rfl
  | packed p capacity =>
    intro slot' _
    rw [decode, decode]
    rfl
  | object hparts harranged hfixed hnames =>
    intro slot' _
    rw [decode, decode]
    rfl
  | _ => cases hlayout

/-! ## Slots of the size that is asked for -/

/-- In place of `v`, which has been given a slot of the size that it asks for, `r` has been read: it
is read back from a slot of the size that it asks for itself, which is no longer, and it asks for
some bytes if `v` does. -/
structure Replaces (cap : Option Nat) (layout : Layout) (v r : Value) : Prop where
  /-- It is read back. -/
  reads : ReadsIn (capped cap (encodedLength layout r)) layout r
  /-- It asks for no more bytes. -/
  le : capped cap (encodedLength layout r) ≤ capped cap (encodedLength layout v)
  /-- It asks for some bytes. -/
  pos : 0 < capped cap (encodedLength layout v) → 0 < capped cap (encodedLength layout r)

/-- What is read of the value, where a slot of the size that it asks for has been given to it,
replaces it. -/
def Settles (cap : Option Nat) (layout : Layout) (v : Value) : Prop :=
  ∀ slot : Bytes, slot.length = capped cap (encodedLength layout v) →
    Replaces cap layout v (decode layout (encodeOver layout v slot).value)

/-- What a value takes of a slot is no longer than the slot. -/
theorem length_value_le (hkeep : layout.KeepsLength) (v : Value) (slot : Bytes) :
    (encodeOver layout v slot).value.length ≤ slot.length := by
  rw [Written.value, List.length_take, (hkeep.encodeOver v slot).1]
  exact Nat.min_le_right _ _

/-- A value that asks for as many bytes replaces the one that it has been read of, if it is read back
from so many. -/
theorem Replaces.of_eq (hreads : ReadsIn n layout r)
    (hr : capped cap (encodedLength layout r) = n) (hv : capped cap (encodedLength layout v) = n) :
    Replaces cap layout v r := by
  refine ⟨?_, ?_, ?_⟩
  · rwa [hr]
  · rw [hr, hv]
  · rw [hr, hv]
    exact id

theorem encodedLength_pos_of_isTable (htable : layout.IsTable) (v : Value) :
    0 < encodedLength layout v := by
  refine lt_of_lt_of_le ?_ (leastLength_le_encodedLength layout v)
  cases layout with
  | vector item limit => exact headerLength_pos 0
  | dict key keyLength value =>
    exact lt_of_lt_of_le (headerLength_pos 0) (Nat.le_add_right_of_le (Nat.le_add_right _ _))
  | map fields => exact Nat.lt_of_lt_of_le (by decide : 0 < Word.width) (Nat.le_add_left _ _)
  | _ => exact htable.elim

/-- A vector, dict or map that asks for no more bytes always asks for some. -/
theorem Replaces.of_isTable (htable : layout.IsTable) (hreads : ReadsBack .tight layout r)
    (hle : encodedLength layout r ≤ encodedLength layout v) : Replaces none layout v r :=
  ⟨hreads, hle, fun _ => encodedLength_pos_of_isTable htable r⟩

/-! ## Contents -/

/-- What is read of a content that has been cut off twice asks for as many bytes again, if it has at
least as many, or if it is the content. -/
theorem capped_capped_eq {k l : Nat} (hn : capped m (capped cap k) = n) (hl : n ≤ l)
    (hwhole : k ≤ n → l = k) : capped m (capped cap l) = n := by
  cases m <;> cases cap <;> simp only [capped] at hn ⊢ <;> omega

/-- A slot that a content asks for is within its cap. -/
theorem withinCap_of_capped {k : Nat} (hn : capped m (capped cap k) = n) :
    n ≤ k ∧ WithinCap cap n := by
  rw [← hn]
  refine ⟨le_trans (capped_le _ _) (capped_le _ _), ?_⟩
  rintro c rfl
  exact le_trans (capped_le _ _) (Nat.min_le_right _ _)

/-- What a content leaves in a slot of the size that it asks for. -/
theorem value_encodeOver_content (hcontent : layout.IsContent)
    (hslot : slot.length = capped m (encodedLength layout v)) :
    (encodeOver layout v slot).value = v.bytes.take slot.length := by
  have hwrite : ∀ cap, capped m (capped cap v.bytes.length) = slot.length →
      ∀ b : Bytes, b.length = slot.length →
        (writeContent cap v.bytes b).value = v.bytes.take slot.length := by
    intro cap hn b hb
    obtain ⟨hle, hcap⟩ := withinCap_of_capped hn
    rw [writeContent_eq (by rw [hb]; exact hcap.le_getD hle), Written.value, hb]
    dsimp only
    rw [List.take_of_length_le (le_of_eq (length_fitted _ _)), fitted_of_le hle]
  cases layout with
  | text cap =>
    rw [encodedLength] at hslot
    rw [encodeOver, amend, write]
    exact hwrite cap hslot.symm _ ((WellFormed.text cap).keepsLength.2 slot)
  | blob cap =>
    rw [encodedLength] at hslot
    rw [encodeOver, amend, write]
    exact hwrite cap hslot.symm _ ((WellFormed.blob cap).keepsLength.2 slot)
  | _ => exact hcontent.elim

/-- **Contents.**  A text without null characters, or a blob, settles where it is cut off. -/
theorem settles_content (hcontent : layout.IsContent) (hv : Legible Text.NulFree layout v) :
    Settles m layout v := by
  intro slot hslot
  rw [value_encodeOver_content hcontent hslot]
  cases layout with
  | text cap =>
    obtain ⟨s, hs, hnul⟩ := hv.exists_utf8 (show Text.NulFree "" by decide)
    rw [encodedLength, hs] at hslot
    obtain ⟨hle, hcap⟩ := withinCap_of_capped hslot.symm
    -- the slot is full, so what is read is the text as far as it is cut off
    have hread : contentText (fitted (Text.utf8 s) slot.length) = Text.cut s slot.length := by
      rw [contentText_fitted, Text.beforeNul_of_notMem hnul]
    have hlength := Text.le_length_utf8_cut hle
    have hsize : capped m (encodedLength (.text cap) (.text (Text.cut s slot.length)))
        = slot.length := by
      rw [encodedLength]
      refine capped_capped_eq hslot.symm hlength fun hwhole => ?_
      rw [Text.cut_of_le hwhole]
      rfl
    have hreads : ReadsIn slot.length (.text cap)
        (.text (contentText (fitted (Text.utf8 s) slot.length))) := by
      refine readsIn_text s ?_
      rw [Text.beforeNul_of_notMem hnul]
      exact hcap.le_getD hlength
    rw [decode, hs, ← fitted_of_le hle]
    refine .of_eq hreads (by rw [hread]; exact hsize) ?_
    rw [encodedLength, hs, hslot]
  | blob cap =>
    rw [encodedLength] at hslot
    obtain ⟨hle, hcap⟩ := withinCap_of_capped hslot.symm
    have hlength : (v.bytes.take slot.length).length = slot.length := by
      rw [List.length_take, Nat.min_eq_left hle]
    have hread : contentBytes cap (v.bytes.take slot.length) = v.bytes.take slot.length := by
      rw [contentBytes, List.take_of_length_le (by rw [hlength]; exact hcap.le_getD (le_refl _))]
    have hbytes : Value.bytes (.blob (v.bytes.take slot.length)) = v.bytes.take slot.length := rfl
    rw [decode, hread]
    have hwithin : WithinCap cap (v.bytes.take slot.length).length := by rwa [hlength]
    have hreads := readsIn_blob hwithin
    rw [hlength] at hreads
    refine .of_eq hreads ?_ ?_
    · rw [encodedLength, hbytes, hlength]
      exact capped_capped_eq hslot.symm (le_refl _) fun hwhole => le_antisymm hle hwhole
    · rw [encodedLength, hslot]
  | _ => exact hcontent.elim

/-! ## Items -/

/-- The number of bytes that an item of a list asks for. -/
def itemLength (item : Layout) (i : Value) : Nat := if i.isNull then 0 else encodedLength item i

theorem itemLength_of_ne_null (h : x ≠ .null) : itemLength item x = encodedLength item x := by
  rw [itemLength, Value.isNull_eq_false h, if_neg Bool.false_ne_true]

/-- What is shown of the value that has been read in place of an item: it asks for no more bytes, and
unless it is a hole it is read back from a slot of the size that it asks for. -/
structure ItemReplaces (item : Layout) (i x : Value) : Prop where
  /-- It asks for no more bytes. -/
  le : itemLength item x ≤ itemLength item i
  /-- It is read back. -/
  reads : x ≠ .null → ReadsBack .tight item x
  /-- It asks for some bytes. -/
  pos : x ≠ .null → 0 < encodedLength item x

/-- A hole replaces every item. -/
theorem itemReplaces_null (item : Layout) (i : Value) : ItemReplaces item i .null :=
  ⟨Nat.zero_le _, fun h => absurd rfl h, fun h => absurd rfl h⟩

/-- The value of the chunk of an item replaces it. -/
theorem itemReplaces_chunk (hkeep : item.KeepsLength) {i : Value}
    (hsettles : i ≠ .null → Settles none item i)
    (hchunk : IsFullChunk (if i.isNull then none else some ⟨encodedLength item i, encodeOver item i⟩)
      chunk) : ItemReplaces item i (chunkValue item chunk) := by
  rw [chunkValue]
  split_ifs with hempty
  · exact itemReplaces_null item i
  · by_cases hnull : i = .null
    · rw [hnull] at hchunk
      exact absurd (congrArg List.length (show chunk = [] from hchunk)) hempty
    · rw [Value.isNull_eq_false hnull, if_neg Bool.false_ne_true] at hchunk
      obtain ⟨slot, hslot, rfl⟩ := hchunk
      dsimp only at hslot hempty ⊢
      have hreplaces := hsettles hnull slot hslot
      -- a chunk that has bytes comes from an item that asks for some
      have hpos : 0 < encodedLength item i := by
        have hle := length_value_le hkeep i slot
        omega
      refine ⟨?_, fun _ => hreplaces.reads, fun _ => hreplaces.pos hpos⟩
      rw [itemLength_of_ne_null (decode_ne_null _ _), itemLength_of_ne_null hnull]
      exact hreplaces.le

/-- Items that are all placed, each with the value of its chunk. -/
theorem itemReplaces_place (hkeep : item.KeepsLength)
    (hsettles : ∀ i ∈ items, i ≠ .null → Settles none item i)
    (h : needs (itemParts (encodedLength item) (encodeOver item) items) ≤ b.length) :
    List.Forall₂ (ItemReplaces item) items
      ((place (itemParts (encodedLength item) (encodeOver item) items) b).1.map
        (chunkValue item)) := by
  rw [List.forall₂_map_right_iff]
  refine (place_map_full (allKeep_itemParts hkeep.encodeOver (encodedLength item) items) h).imp ?_
  rintro i chunk ⟨hmem, hchunk⟩
  exact itemReplaces_chunk hkeep (hsettles i hmem) hchunk

variable {xs : List Value}

/-- Replaced items ask for no more bytes altogether. -/
theorem sum_itemLength_le (h : List.Forall₂ (ItemReplaces item) items xs) :
    (xs.map (itemLength item)).sum ≤ (items.map (itemLength item)).sum := by
  induction h with
  | nil => exact le_refl _
  | cons hfirst _ ih =>
    rw [List.map_cons, List.map_cons, List.sum_cons, List.sum_cons]
    exact Nat.add_le_add hfirst.le ih

/-- What is on the right of related lists is related to something on the left. -/
theorem exists_of_forall₂ {α β : Type} {R : α → β → Prop} {as : List α} {bs : List β} {b : β}
    (h : List.Forall₂ R as bs) (hb : b ∈ bs) : ∃ a, R a b := by
  induction h with
  | nil => exact absurd hb List.not_mem_nil
  | cons hfirst _ ih =>
    rcases List.mem_cons.mp hb with rfl | hb
    · exact ⟨_, hfirst⟩
    · exact ih hb

/-! ## Vectors -/

theorem encodedLength_vector (item : Layout) (limit : Option Nat) (v : Value) :
    encodedLength (.vector item limit) v = headerLength (admitted limit v.items).length
      + ((admitted limit v.items).map (itemLength item)).sum := by
  rw [encodedLength]
  rfl

/-- A list of values that replace the items of a vector replaces the vector. -/
theorem replaces_list (hkeep : item.KeepsLength) (limit : Option Nat)
    (h : List.Forall₂ (ItemReplaces item) (admitted limit v.items) xs)
    (hsmall : encodedLength (.vector item limit) v < 2 ^ 32) :
    Replaces none (.vector item limit) v (.list xs) := by
  have hwithin : WithinCap limit xs.length := h.length_eq ▸ withinCap_admitted limit v.items
  -- there are as many values as items, and they ask for no more bytes
  have hle : encodedLength (.vector item limit) (.list xs)
      ≤ encodedLength (.vector item limit) v := by
    have hxs : admitted limit (Value.items (.list xs)) = xs := admitted_of_withinCap hwithin
    rw [encodedLength_vector, encodedLength_vector, hxs, ← h.length_eq]
    exact Nat.add_le_add_left (sum_itemLength_le h) _
  have hreads : ReadsBack .tight (.vector item limit) (.list xs) := by
    refine readsBack_vector hkeep hwithin ?_ ?_ (lt_of_le_of_lt hle hsmall)
    · intro x hx
      obtain ⟨i, hi⟩ := exists_of_forall₂ h hx
      exact hi.reads
    · intro x hx
      obtain ⟨i, hi⟩ := exists_of_forall₂ h hx
      exact hi.pos
  exact .of_isTable True.intro hreads hle

/-- **Vectors.**  A vector settles if its items do. -/
theorem settles_vector (hwf : item.WellFormed) (limit : Option Nat)
    (hitems : ∀ i ∈ admitted limit v.items, i ≠ .null → Settles none item i)
    (hsmall : encodedLength (.vector item limit) v < 2 ^ 32) :
    Settles none (.vector item limit) v := by
  intro slot hslot
  have hkeep := hwf.keepsLength
  have hneeds : encodedLength (.vector item limit) v = headerLength (admitted limit v.items).length
      + needs (itemParts (encodedLength item) (encodeOver item) (admitted limit v.items)) := by
    rw [encodedLength, itemParts_encodeOver_needs]
  replace hslot : slot.length = encodedLength (.vector item limit) v := hslot
  have hlength := hslot.trans hneeds
  have hreplaces := itemReplaces_place hkeep hitems
    (b := slot.drop (headerLength (admitted limit v.items).length))
    (by rw [List.length_drop]; omega)
  have hvalue : (encodeOver (.vector item limit) v slot).value
      = vectorImage (place
        (itemParts (encodedLength item) (encodeOver item) (admitted limit v.items))
        (slot.drop (headerLength (admitted limit v.items).length))).1 := by
    rw [encodeOver, amend, seed_of_fixedLength_eq_none rfl rfl, write_vector,
      writeVector_full (encodedLength item) hkeep.encodeOver (le_of_eq hlength.symm),
      Written.value_append]
  have himage := length_value_le (hwf.vector limit).keepsLength v slot
  rw [hvalue] at himage ⊢
  rw [← List.append_nil (vectorImage _), decode_vectorImage item limit (by omega)]
  exact replaces_list hkeep limit hreplaces hsmall

/-! ## Dicts -/

/-- The number of bytes that an entry of a dict asks for: those of its value and of its key, and a
word of the header. -/
def entryLength (value : Layout) (keyLength : Nat) (e : String × Value) : Nat :=
  Word.width + keyLength + itemLength value e.2

theorem sum_entryLength (value : Layout) (keyLength : Nat) (entries : List (String × Value)) :
    (entries.map (entryLength value keyLength)).sum
      = entries.length * (Word.width + keyLength)
        + ((entries.map (·.2)).map (itemLength value)).sum := by
  induction entries with
  | nil => rw [List.length_nil, Nat.zero_mul]; rfl
  | cons e rest ih =>
    rw [List.map_cons, List.sum_cons, ih, List.map_cons, List.map_cons, List.sum_cons,
      List.length_cons, Nat.succ_mul, entryLength]
    omega

theorem encodedLength_dict (key value : Layout) (keyLength : Nat) (v : Value) :
    encodedLength (.dict key keyLength value) v = dictOverhead keyLength 0
      + (v.fields.map (entryLength value keyLength)).sum := by
  rw [sum_entryLength, ← Nat.add_assoc, ← dictOverhead_eq, encodedLength, List.length_map]
  rfl

/-- **Keys of a dict.**  What is read of the keys that have been written is read back. -/
theorem keyReads_placeKeys (value : Layout) (hwf : key.WellFormed)
    (hlayout : key.fixedLength? = some keyLength) (hfloats : key.FloatFree)
    {entries : List (String × Value)} (hroom : dictOverhead keyLength entries.length ≤ b.length) :
    ∀ k ∈ placeKeys keyLength (putKey key) (encodedLength value) (encodeOver value) entries b,
      KeyReads key keyLength (keyText key (decode key k)) := by
  have hslots : (entries.map fun e => putKey key e.1).length * keyLength
      ≤ (keyRoom keyLength (encodedLength value) (encodeOver value) entries b).length := by
    rw [List.length_map, length_keyRoom (encodedLength value) (encodeOver value) hroom]
    exact Nat.le_add_left _ _
  have hspec := rewriteSlots_spec hslots
  rw [← placeKeys, List.forall₂_map_left_iff] at hspec
  intro k hk
  obtain ⟨e, slot, hslot, rfl⟩ := exists_of_forall₂ hspec hk
  exact keyReads_keyText hwf hlayout hfloats e.1 hslot

/-- A record of names that are read back and values that replace those of a dict replaces the dict,
also where entries fall away because their names have become equal. -/
theorem replaces_setNew (hkeepKey : key.KeepsLength) (hkeep : value.KeepsLength)
    {names : List String} (hnames : ∀ name ∈ names, KeyReads key keyLength name)
    (hcount : names.length = xs.length)
    (h : List.Forall₂ (ItemReplaces value) (v.fields.map (·.2)) xs)
    (hsmall : encodedLength (.dict key keyLength value) v < 2 ^ 32) :
    Replaces none (.dict key keyLength value) v (.record (Value.setNew (names.zip xs) [])) := by
  -- an entry that is left has one of the names and one of the values
  have hmem : ∀ e ∈ Value.setNew (names.zip xs) [], e.1 ∈ names ∧ e.2 ∈ xs := by
    intro e he
    rcases Value.mem_setNew he with he | he
    · exact List.of_mem_zip he
    · exact absurd he List.not_mem_nil
  have hitem : ∀ e ∈ Value.setNew (names.zip xs) [], ∃ i, ItemReplaces value i e.2 :=
    fun e he => exists_of_forall₂ h (hmem e he).2
  -- the entries that are left ask for no more bytes than all of them
  have hle : encodedLength (.dict key keyLength value) (.record (Value.setNew (names.zip xs) []))
      ≤ encodedLength (.dict key keyLength value) v := by
    have hleft := Value.sum_map_setNew_le (entryLength value keyLength) (names.zip xs) []
    have hvalues := sum_itemLength_le h
    have hfields := h.length_eq
    rw [sum_entryLength value keyLength (names.zip xs), List.length_zip, hcount, Nat.min_self,
      List.map_snd_zip (le_of_eq hcount.symm), List.map_nil, List.sum_nil] at hleft
    rw [List.length_map] at hfields
    rw [encodedLength_dict, encodedLength_dict, sum_entryLength value keyLength v.fields, hfields]
    exact Nat.add_le_add_left (le_trans hleft (Nat.add_le_add_left hvalues _)) _
  refine .of_isTable True.intro ?_ hle
  refine readsBack_dict hkeepKey hkeep (Value.Ordered.setNew List.Pairwise.nil _)
    (fun e he => hnames e.1 (hmem e he).1) ?_ ?_ (lt_of_le_of_lt hle hsmall)
  · intro e he
    obtain ⟨i, hi⟩ := hitem e he
    exact hi.reads
  · intro e he
    obtain ⟨i, hi⟩ := hitem e he
    exact hi.pos

/-- **Dicts.**  A dict settles if its values do. -/
theorem settles_dict (hkey : key.WellFormed) (hlayout : key.fixedLength? = some keyLength)
    (hfloats : key.FloatFree) (hwf : value.WellFormed)
    (hvalues : ∀ e ∈ v.fields, e.2 ≠ .null → Settles none value e.2)
    (hsmall : encodedLength (.dict key keyLength value) v < 2 ^ 32) :
    Settles none (.dict key keyLength value) v := by
  intro slot hslot
  have hkeep := hwf.keepsLength
  have hputKey := length_putKey hkey.keepsLength keyLength
  have hneeds : encodedLength (.dict key keyLength value) v = dictOverhead keyLength v.fields.length
      + needs (itemParts (encodedLength value) (encodeOver value) (v.fields.map (·.2))) := by
    rw [encodedLength, itemParts_encodeOver_needs, List.length_map]
  replace hslot : slot.length = encodedLength (.dict key keyLength value) v := hslot
  have hlength := hslot.trans hneeds
  have hroom : dictOverhead keyLength v.fields.length ≤ slot.length := by omega
  have hreplaces : List.Forall₂ (ItemReplaces value) (v.fields.map (·.2))
      ((placeValues keyLength (encodedLength value) (encodeOver value) v.fields slot).1.map
        (chunkValue value)) := by
    apply itemReplaces_place hkeep
    · intro i hi
      obtain ⟨e, he, rfl⟩ := List.mem_map.mp hi
      exact hvalues e he
    · unfold dictOverhead at hlength
      rw [List.length_drop, List.length_take, valueRoom]
      omega
  have hvalue : (encodeOver (.dict key keyLength value) v slot).value
      = dictImage (placeValues keyLength (encodedLength value) (encodeOver value) v.fields slot).1
        (placeKeys keyLength (putKey key) (encodedLength value) (encodeOver value) v.fields
          slot) := by
    rw [encodeOver, amend, seed_of_fixedLength_eq_none rfl rfl, write_dict,
      writeDict_full hkeep.encodeOver hputKey hroom, Written.value_append]
  have himage := length_value_le (hkey.dict hlayout hwf).keepsLength v slot
  rw [hvalue] at himage ⊢
  rw [← List.append_nil (dictImage _ _), decode_dictImage key value (by omega)
    (by rw [length_placeKeys, length_placeValues_fst])
    (length_of_mem_placeKeys (encodedLength value) (encodeOver value) hputKey hroom)]
  refine replaces_setNew hkey.keepsLength hkeep ?_ ?_ hreplaces hsmall
  · intro name hname
    obtain ⟨k, hk, rfl⟩ := List.mem_map.mp hname
    exact keyReads_placeKeys value hkey hlayout hfloats hroom k hk
  · rw [List.length_map, List.length_map, length_placeKeys, length_placeValues_fst]

/-! ## Maps -/

/-- Once a map has been read, what is found of an optional field replaces the value that the record
had for it. -/
def FieldReplaces (v : Value) (entries : List (String × Value)) (f : Field Layout) : Prop :=
  ∀ x, entries.lookup f.name = some x → x ≠ .null ∧ ∃ y, v.get? f.name = some y
    ∧ 0 < capped f.maxLength (encodedLength f.layout y) ∧ Replaces f.maxLength f.layout y x

/-- The value of the chunk of an optional field without a default replaces that of the record. -/
theorem fieldReplaces_chunk (hbare : f.default = none)
    (hsettles : ∀ y, v.get? f.name = some y → Settles f.maxLength f.layout y)
    (hchunk : IsFullChunk (optionalPart v f) chunk) {entries : List (String × Value)}
    (hlookup : entries.lookup f.name
      = if chunk.length = 0 then none else some (decode f.layout chunk)) :
    FieldReplaces v entries f := by
  intro x hx
  rw [hlookup] at hx
  split_ifs at hx with hempty
  obtain rfl := Option.some.inj hx
  rw [optionalPart, Field.pick?, hbare, Option.or_none] at hchunk
  cases hy : v.get? f.name with
  | none =>
    rw [hy] at hchunk
    exact absurd (congrArg List.length (show chunk = [] from hchunk)) hempty
  | some y =>
    rw [hy, Option.bind_some] at hchunk
    split_ifs at hchunk with hpos
    · obtain ⟨slot, hslot, rfl⟩ := hchunk
      exact ⟨decode_ne_null _ _, y, rfl, hpos, hsettles y hy slot hslot⟩
    · exact absurd (congrArg List.length (show chunk = [] from hchunk)) hempty

/-- So it asks for no more bytes. -/
theorem FieldReplaces.need_le {entries : List (String × Value)} (h : FieldReplaces v entries f)
    (hbare : f.default = none) :
    need (optionalPart (.record entries) f) ≤ need (optionalPart v f) := by
  cases hx : entries.lookup f.name with
  | none =>
    rw [optionalPart, Field.pick?, get?_record_eq_none hx, hbare]
    exact Nat.zero_le _
  | some x =>
    obtain ⟨hnull, y, hy, hpos, hreplaces⟩ := h x hx
    rw [optionalPart_record hx hnull (hreplaces.pos hpos), optionalPart, Field.pick?, hy,
      Option.some_or, Option.bind_some, if_pos hpos]
    exact hreplaces.le

/-- The fixed places of a map stay settled when a legible record is written over its defaults. -/
theorem settledPlaces_writeFixed (hwf : (Layout.map fields).WellFormed)
    (hread : ∀ part, Within part (.map fields) → part.DefaultsRead) {p : String → Prop}
    (hv : Legible p (.map fields) v) :
    SettledPlaces fields (writeFixed fields v (template fields)) := by
  cases hwf with
  | map hparts harranged hnames =>
    have hkeep := fun f hf => (hparts f hf).keepsLength
    have hfit : AllFit fields (template fields) := allFit_of_length (length_template hkeep)
    have htemplate : SettledPlaces fields (template fields) :=
      settledPlaces_template harranged hparts (hread _ (.self _) fields rfl) fun f hf slot hslot =>
        (hparts f hf).settled_seed (fun part hpart => hread part (.map hf hpart)) hslot
    refine htemplate.writeFixed harranged hkeep hfit fun f hf span hplace x hx => ?_
    refine Settled.write (u := .kept) (htemplate f hf span hplace) (hparts f hf) ?_
      (hv.field rfl hf hx)
    rw [Span.length_slice_of_fits (hfit f hf span hplace)]
    exact harranged.length_eq hf hplace

/-- What is read of a settled fixed place of a map is read back. -/
theorem readsBack_mapImage (hwf : (Layout.map fields).WellFormed)
    (hfloats : (Layout.map fields).FloatFree) (hregion : fixed.length = fixedRegion fields)
    (hplaces : SettledPlaces fields fixed) (hf : f ∈ fields) (hplace : f.ordinal? = none) :
    ∃ x, (decodedFields (.map fields) (mapImage fixed chunks)).lookup f.name = some x ∧ x ≠ .null
      ∧ ReadsBack .fixed f.layout x := by
  cases hwf with
  | map hparts harranged hnames =>
    cases hspan : f.place with
    | optional k =>
      rw [Field.ordinal?, hspan] at hplace
      cases hplace
    | fixed span =>
      have hslot := Span.length_slice_of_fits (allFit_of_length hregion f hf span hspan)
      have hlayout := harranged.length_eq hf hspan
      refine ⟨decode f.layout (span.slice fixed), ?_, decode_ne_null _ _, ?_⟩
      · rw [lookup_decodedFields rfl hnames hf, ← List.append_nil (mapImage _ _),
          fieldValue?_mapImage_fixed hregion hf hspan]
      · have hreads := (hplaces f hf span hspan).readsIn (hparts f hf)
          (by rw [hslot]; exact hlayout) (hfloats.within (.map hf (.self _)))
        rw [hslot] at hreads
        exact (readsBack_fixed_iff hlayout).mpr hreads

/-- What is read of the chunk of an optional field of a map replaces the value of the record. -/
theorem fieldReplaces_mapImage (hwf : (Layout.map fields).WellFormed)
    (hregion : fixed.length = fixedRegion fields)
    (hchunks : List.Forall₂ (fun f chunk => IsFullChunk (optionalPart v f) chunk) (optionals fields)
      chunks) (hsmall : (mapImage fixed chunks).length < 2 ^ 32) (hf : f ∈ fields)
    (hoptional : f.ordinal? ≠ none) (hbare : f.default = none)
    (hsettles : ∀ y, v.get? f.name = some y → Settles f.maxLength f.layout y) :
    FieldReplaces v (decodedFields (.map fields) (mapImage fixed chunks)) f := by
  have hcount : chunks.length = optionalCount fields := by
    rw [← hchunks.length_eq, length_optionals]
  cases hwf with
  | map hparts harranged hnames =>
    cases hplace : f.place with
    | fixed span =>
      rw [Field.ordinal?, hplace] at hoptional
      exact absurd rfl hoptional
    | optional k =>
      have hk : k < (optionals fields).length := by
        rw [length_optionals]
        exact harranged.ordinal_lt hf hplace
      have hkChunks : k < chunks.length := by rwa [hcount, ← length_optionals]
      have hchunk := hchunks.get hk hkChunks
      rw [List.get_eq_getElem, List.get_eq_getElem, harranged.getElem_optionals hf hplace hk]
        at hchunk
      refine fieldReplaces_chunk hbare hsettles hchunk ?_
      rw [lookup_decodedFields rfl hnames hf, ← List.append_nil (mapImage _ _),
        fieldValue?_mapImage_optional hregion hcount hsmall hplace hkChunks]

/-- A record whose fixed fields are read back and whose optional fields replace those of another
replaces it. -/
theorem replaces_record (hwf : (Layout.map fields).WellFormed) {entries : List (String × Value)}
    (hordered : Value.Ordered entries)
    (hnames : ∀ name ∈ entries.map (·.1), name ∈ fields.map Field.name)
    (hbare : ∀ f ∈ fields, f.ordinal? ≠ none → f.default = none)
    (hfixed : ∀ f ∈ fields, f.ordinal? = none →
      ∃ x, entries.lookup f.name = some x ∧ x ≠ .null ∧ ReadsBack .fixed f.layout x)
    (hoptional : ∀ f ∈ fields, f.ordinal? ≠ none → FieldReplaces v entries f)
    (hsmall : encodedLength (.map fields) v < 2 ^ 32) :
    Replaces none (.map fields) v (.record entries) := by
  -- each optional field asks for no more bytes, and so does the record
  have hneeds : needs (optionalParts fields (.record entries)) ≤ needs (optionalParts fields v) := by
    rw [needs, needs, optionalParts, optionalParts, List.map_map, List.map_map]
    refine List.sum_le_sum fun f hf => ?_
    have hmem := mem_of_mem_optionals hf
    have hordinal := ordinal?_ne_none_of_mem_optionals hf
    exact (hoptional f hmem hordinal).need_le (hbare f hmem hordinal)
  have hle : encodedLength (.map fields) (.record entries) ≤ encodedLength (.map fields) v := by
    rw [needs_optionalParts, needs_optionalParts] at hneeds
    rw [encodedLength, encodedLength]
    exact Nat.add_le_add_left hneeds _
  refine .of_isTable True.intro ?_ hle
  cases hwf with
  | map hparts harranged hnodup =>
    refine readsBack_map harranged hnodup (fun f hf => (hparts f hf).keepsLength) hordered hnames
      ?_ ?_ ?_ ?_ ?_ (lt_of_le_of_lt hle hsmall)
    · intro f hf hpresent
      have hnone : f.ordinal? = none := by
        by_contra hordinal
        exact (hpresent.resolve_left hordinal) (hbare f hf hordinal)
      obtain ⟨x, hx, -⟩ := hfixed f hf hnone
      exact List.mem_map_of_mem (Value.mem_of_lookup hx)
    · intro f hf x hx
      by_cases hnone : f.ordinal? = none
      · obtain ⟨y, hy, hnull, -⟩ := hfixed f hf hnone
        rwa [Option.some.inj (hx.symm.trans hy)]
      · exact (hoptional f hf hnone x hx).1
    · intro f hf hnone x hx
      obtain ⟨y, hy, -, hreads⟩ := hfixed f hf hnone
      rwa [Option.some.inj (hx.symm.trans hy)]
    · intro f hf hordinal x hx
      obtain ⟨-, y, -, -, hreplaces⟩ := hoptional f hf hordinal x hx
      exact hreplaces.reads
    · intro f hf hordinal x hx
      obtain ⟨-, y, -, hpos, hreplaces⟩ := hoptional f hf hordinal x hx
      exact hreplaces.pos hpos

/-- **Maps.**  A map whose optional fields have no defaults settles if these fields do. -/
theorem settles_map (hwf : (Layout.map fields).WellFormed) (hfloats : (Layout.map fields).FloatFree)
    (hplaces : SettledPlaces fields (writeFixed fields v (template fields)))
    (hbare : ∀ f ∈ fields, f.ordinal? ≠ none → f.default = none)
    (hsettles : ∀ f ∈ fields, f.ordinal? ≠ none → ∀ y, v.get? f.name = some y →
      Settles f.maxLength f.layout y)
    (hsmall : encodedLength (.map fields) v < 2 ^ 32) : Settles none (.map fields) v := by
  intro slot hslot
  have hlength : slot.length = encodedLength (.map fields) v := hslot
  obtain ⟨room, hroom, hvalue⟩ := value_encodeOver_map hwf hlength
  have himage := length_value_le hwf.keepsLength v slot
  rw [hvalue] at himage ⊢
  have hkeep : ∀ f ∈ fields, f.layout.KeepsLength := by
    cases hwf with
    | map hparts harranged hnames => exact fun f hf => (hparts f hf).keepsLength
  have hregion : (writeFixed fields v (template fields)).length = fixedRegion fields := by
    rw [length_writeFixed hkeep, length_template hkeep]
  have hchunks := place_full (allKeep_optionalParts hkeep v) (le_of_eq hroom.symm)
  generalize (place (optionalParts fields v) room).1 = chunks at himage hchunks ⊢
  rw [optionalParts, List.forall₂_map_left_iff] at hchunks
  rw [decode_record rfl]
  refine replaces_record hwf (ordered_decodedFields _ _) ?_ hbare ?_ ?_ hsmall
  · cases hwf with
    | map hparts harranged hnames => exact fun name => mem_names_of_mem_decodedFields rfl hnames
  · exact fun f hf hnone => readsBack_mapImage hwf hfloats hregion hplaces hf hnone
  · intro f hf hoptional
    exact fieldReplaces_mapImage hwf hregion hchunks (by omega) hf hoptional (hbare f hf hoptional)
      (hsettles f hf hoptional)

/-! ## All layouts -/

/-- No optional field of a map in the layout has a default. -/
def BareOptionals (layout : Layout) : Prop :=
  ∀ fields, Within (.map fields) layout → ∀ f ∈ fields, f.ordinal? ≠ none → f.default = none

/-- Under these conditions a layout changes nothing more when a value is stored a second time. -/
structure Repeatable (layout : Layout) : Prop where
  /-- Defaults have been read from documents. -/
  defaults : ∀ part, Within part layout → part.DefaultsRead
  /-- No number is a floating-point number, whose bits are not all read back. -/
  floats : layout.FloatFree
  /-- No default comes back in place of an optional field that takes no bytes. -/
  bare : layout.BareOptionals
  /-- No value with a table of its own is cut off. -/
  caps : layout.CapsContents

theorem Repeatable.within (h : layout.Repeatable) {part : Layout} (hpart : Within part layout) :
    part.Repeatable where
  defaults inner hinner := h.defaults inner (hinner.trans hpart)
  floats := h.floats.within hpart
  bare fields hfields := h.bare fields (hfields.trans hpart)
  caps fields hfields := h.caps fields (hfields.trans hpart)

/-- Where all values have one size, a legible value settles. -/
theorem settles_fixed (hwf : layout.WellFormed) (h : layout.Repeatable)
    (hlayout : layout.fixedLength? = some n) (htext : ∀ cap, layout ≠ .text cap)
    (hblob : ∀ cap, layout ≠ .blob cap) {p : String → Prop} (hv : Legible p layout v) :
    Settles none layout v := by
  intro slot hslot
  have hsize : ∀ v, slotLength .tight layout v = n := fun v =>
    slotLength_of_fixed hlayout htext hblob
  have hn : slot.length = n := hslot.trans (hsize v)
  have hfresh : slot.length = freshLength layout v := by
    rw [freshLength, hlayout, Option.getD_some, hn]
  have hreads := hwf.readsIn_encodeOver h.defaults h.floats hv (b := slot)
    (by rw [hn]; exact hlayout)
  rw [hn] at hreads
  rw [hwf.value_encodeOver (not_isTable_of_fixedLength hlayout) hfresh]
  exact .of_eq hreads (hsize _) (hsize _)

/-- **Settling.**  What is read of a legible value, where a slot of the size that it asks for has been
given to it, is read back from a slot of the size that it asks for itself. -/
theorem WellFormed.settles (hwf : layout.WellFormed) (h : layout.Repeatable)
    (hv : Legible Text.NulFree layout v) (hsmall : encodedLength layout v < 2 ^ 32) :
    Settles none layout v := by
  -- along the layout: a part asks for no more bytes than the whole, so it settles as well
  induction hwf generalizing v with
  | primitive p => exact settles_fixed (.primitive p) h rfl (by simp) (by simp) hv
  | text cap => exact settles_content True.intro hv
  | blob cap => exact settles_content True.intro hv
  | array capacity hitem hstride =>
    exact settles_fixed (.array capacity hitem hstride) h rfl (by simp) (by simp) hv
  | packed p capacity => exact settles_fixed (.packed p capacity) h rfl (by simp) (by simp) hv
  | vector limit hitem ih =>
    cases hv with
    | vector hitems =>
      refine settles_vector hitem limit (fun i hi hnull => ?_) hsmall
      exact ih (h.within (.vector (.self _))) (hitems i hi)
        (lt_of_le_of_lt (encodedLength_le_vector hi hnull) hsmall)
  | dict hkey hlength hvalue ihkey ihvalue =>
    cases hv with
    | dict hvalues =>
      refine settles_dict hkey hlength (h.within (.key (.self _))).floats hvalue
        (fun e he hnull => ?_) hsmall
      exact ihvalue (h.within (.value (.self _))) (hvalues e he)
        (lt_of_le_of_lt (encodedLength_le_dict he hnull) hsmall)
  | object hparts harranged hfixed hnames =>
    exact settles_fixed (.object hparts harranged hfixed hnames) h rfl (by simp) (by simp) hv
  | map hparts harranged hnames ih =>
    have hwf := WellFormed.map hparts harranged hnames
    refine settles_map hwf h.floats (settledPlaces_writeFixed hwf h.defaults hv)
      (h.bare _ (.self _)) (fun f hf hoptional y hy => ?_) hsmall
    have hlegible := hv.field rfl hf hy
    cases hcap : f.maxLength with
    | some m =>
      have hcontent := h.caps _ (.self _) f hf hoptional (by rw [hcap]; exact Option.some_ne_none m)
      exact settles_content hcontent hlegible
    | none =>
      have hle : capped f.maxLength (encodedLength f.layout y) ≤ _ :=
        encodedLength_le_map hf hoptional (by rw [Field.pick?, hy, Option.some_or])
      rw [hcap] at hle
      exact ih f hf (h.within (.map hf (.self _))) hlegible (lt_of_le_of_lt hle hsmall)

/-- **Idempotence.**  Storing what has been read of a value changes nothing more.  The value need not
conform to the layout, but it gives no blob to a text and no text with a null character. -/
theorem normalize_normalize (hlayout : layout.IsCompiled) (hfloats : layout.FloatFree)
    (hbare : layout.BareOptionals) (hcaps : layout.CapsContents) {d : Value}
    (hd : Legible Text.NulFree layout d) (hsmall : freshLength layout d < 2 ^ 32) :
    normalize layout (normalize layout d) = normalize layout d := by
  have hwf := hlayout.wellFormed
  have h : layout.Repeatable := ⟨fun _ hpart => hlayout.defaultsRead hpart, hfloats, hbare, hcaps⟩
  have hreads : ReadsIn (freshLength layout (normalize layout d)) layout (normalize layout d) := by
    cases hfixed : layout.fixedLength? with
    | some n =>
      have hfresh : ∀ v, freshLength layout v = n := fun v => by
        rw [freshLength, hfixed, Option.getD_some]
      have hback := hwf.readsIn_encodeOver h.defaults hfloats hd (b := zeros (freshLength layout d))
        (by rw [length_zeros, hfresh]; exact hfixed)
      rw [length_zeros, ← toBytes_eq_bytes hwf (not_isTable_of_fixedLength hfixed), hfresh] at hback
      rw [hfresh]
      exact hback
    | none =>
      have hfresh : ∀ v, freshLength layout v = encodedLength layout v := fun v => by
        rw [freshLength, hfixed, Option.getD_none]
      rw [hfresh] at hsmall
      have hsettles := hwf.settles h hd hsmall (zeros (freshLength layout d))
        (by rw [length_zeros, hfresh]; rfl)
      rw [hfresh]
      exact hsettles.reads
  exact (hreads.encodeOver hwf.keepsLength (length_zeros _)).2

/-- A nickname whose only letter is cut in two, which reads as a replacement character of three bytes
where one is stored, and two keys that are cut to the same one. -/
theorem normalize_normalize_cutKeys :
    let layout : Layout := .map [⟨"nick", .text (some 1), .optional 0, none, some 1⟩,
      ⟨"notes", .dict (.text (some 1)) 1 (.text none), .optional 1, none, none⟩]
    let d : Value := .record [("nick", .text "é"),
      ("notes", .record [("ab", .text "x"), ("ac", .text "y")])]
    (toBytes layout (normalize layout d)).length < (toBytes layout d).length
      ∧ normalize layout (normalize layout d) = normalize layout d := by
  intro layout d
  have hcompiled : layout.IsCompiled := .of_eval ⟨0⟩ (.object
    [("type", .text "object"), ("btype", .text "map"), ("properties", .object
      [("nick", .object [("type", .text "string"), ("maxLength", .number (.natural 1))]),
        ("notes", .object [("type", .text "object"), ("btype", .text "dict"),
          ("propertyNames", .object [("type", .text "string"), ("maxLength", .number (.natural 1))]),
          ("additionalProperties", .object [("type", .text "string")])])])]) (by cbv)
  have hwithin : ∀ part, Within part layout → part = layout
      ∨ part = .dict (.text (some 1)) 1 (.text none) ∨ ∃ cap, part = .text cap := by
    have htext : ∀ cap part, Within part (.text cap) → ∃ cap, part = .text cap := by
      rintro cap part ⟨⟩
      exact ⟨cap, rfl⟩
    refine forall_within (Or.inl rfl) ?_
    intro part hpart inner h
    rcases List.mem_cons.mp hpart with rfl | hpart
    · exact Or.inr (Or.inr (htext _ _ h))
    · rw [List.mem_singleton.mp hpart] at h
      cases h with
      | self => exact Or.inr (Or.inl rfl)
      | key h => exact Or.inr (Or.inr (htext _ _ h))
      | value h => exact Or.inr (Or.inr (htext _ _ h))
  have hfloats : layout.FloatFree := by
    rintro p (h | ⟨capacity, h⟩) <;> rcases hwithin _ h with h | h | ⟨cap, h⟩ <;> injection h
  have hfields : ∀ fields, Within (.map fields) layout → ∀ f ∈ fields,
      f.default = none ∧ (f.maxLength ≠ none → f.layout.IsContent) := by
    intro fields h
    rcases hwithin _ h with h | h | ⟨cap, h⟩
    · injection h with h
      rw [h]
      simp [IsContent]
    · cases h
    · cases h
  have hlegible : Legible Text.NulFree layout d := by
    have htext : ∀ cap s, Text.NulFree s → Legible Text.NulFree (.text cap) (.text s) :=
      fun cap s hs => .text (fun b h => by cases h) (by rintro _ ⟨⟩; exact hs)
    have hnotes : Legible Text.NulFree (.dict (.text (some 1)) 1 (.text none))
        (.record [("ab", .text "x"), ("ac", .text "y")]) := by
      refine .dict fun e he => ?_
      rcases List.mem_cons.mp he with rfl | he
      · exact htext _ _ (by decide)
      · rw [List.mem_singleton.mp he]
        exact htext _ _ (by decide)
    refine .map fun f hf x hx => ?_
    rcases List.mem_cons.mp hf with rfl | hf
    · obtain rfl : Value.text "é" = x := Option.some.inj hx
      exact htext _ _ (by decide)
    · rw [List.mem_singleton.mp hf] at hx ⊢
      obtain rfl := Option.some.inj hx
      exact hnotes
  exact ⟨by decide +kernel, normalize_normalize hcompiled hfloats
    (fun fields h f hf _ => (hfields fields h f hf).1)
    (fun fields h f hf _ => (hfields fields h f hf).2) hlegible (by decide +kernel)⟩

end Layout

end BinarySchema
