/-
# Overwriting a slot

What a slot reads as once it has been filled with zeros and overwritten by a value that fits
(`Sound.decode_overwrite`): as the value does on its own, since neither the zeros behind it nor the
size of the slot matter.  Only a blob reads to the end of its slot.
-/
import BinarySchema.Proofs.Sound
import BinarySchema.Proofs.Text
import BinarySchema.Window

namespace BinarySchema

namespace Layout

variable {layout : Layout} {v : Value} {b : Bytes} {cap : Option Nat}

/-! ## More room -/

theorem seed_of_fixedLength_eq_none (hfields : layout.fields? = none)
    (hlayout : layout.fixedLength? = none) (b : Bytes) : seed layout b = b := by
  have harray : ∀ item stride capacity, layout ≠ .array item stride capacity := by
    rintro item stride capacity rfl
    cases hlayout
  rw [seed_eq_onFront hfields harray, hlayout]
  rfl

/-- Where there is room for all parts of a map, more room changes nothing. -/
theorem write_map_append {u : Unsupplied} {fields : List (Field Layout)}
    (harranged : Arranged 0 0 fields) (hparts : ∀ f ∈ fields, f.layout.KeepsLength)
    (h : encodedLength (.map fields) v ≤ b.length) (c : Bytes) :
    write u (.map fields) v (b ++ c)
      = ⟨(write u (.map fields) v b).bytes ++ c, (write u (.map fields) v b).length⟩ := by
  rw [encodedLength, ← needs_optionalParts] at h
  have hregion : fixedRegion fields ≤ b.length :=
    le_trans (fixedRegion_le_dataStart fields) (by omega)
  have hplace := place_append (allKeep_optionalParts hparts v) (b := b.drop (dataStart fields))
    (by rw [List.length_drop]; omega) c
  have hfixed : fixedBytes u fields v (b ++ c) = fixedBytes u fields v b := by
    rw [fixedBytes, List.take_append_of_le_length hregion, fixedBytes]
  rw [write_map harranged hparts (by rw [List.length_append]; omega) rfl,
    write_map harranged hparts (by omega) rfl,
    List.drop_append_of_le_length (by omega), hplace, hfixed]
  simp only [List.append_assoc]

/-- **More room.**  Where there is room for a vector, a dict or a map, more room changes nothing. -/
theorem encodeOver_append (hwf : layout.WellFormed) (htable : layout.IsTable)
    (h : encodedLength layout v ≤ b.length) (c : Bytes) :
    encodeOver layout v (b ++ c)
      = ⟨(encodeOver layout v b).bytes ++ c, (encodeOver layout v b).length⟩ := by
  rw [encodeOver, encodeOver, amend, amend]
  cases hwf with
  | vector limit hitem =>
    rw [encodedLength, ← itemParts_encodeOver_needs] at h
    rw [seed_of_fixedLength_eq_none rfl rfl, seed_of_fixedLength_eq_none rfl rfl, write_vector,
      write_vector, writeVector_append hitem.keepsLength.encodeOver h]
  | dict hkey hlength hvalue =>
    rw [encodedLength, ← itemParts_encodeOver_needs, List.length_map] at h
    rw [seed_of_fixedLength_eq_none rfl rfl, seed_of_fixedLength_eq_none rfl rfl, write_dict,
      write_dict, writeDict_append hvalue.keepsLength.encodeOver (length_putKey hkey.keepsLength _) h]
  | @map fields hparts harranged hnames =>
    have hkeep : ∀ f ∈ fields, f.layout.KeepsLength := fun f hf => (hparts f hf).keepsLength
    -- the defaults are in the fixed region, which is there before there is more room
    have htemplate : (writeDefaults fields (zeros (fixedRegion fields))).length ≤ b.length := by
      have hregion := fixedRegion_le_dataStart fields
      rw [encodedLength] at h
      rw [length_writeDefaults hkeep, length_zeros]
      omega
    have hseed : seed (.map fields) (b ++ c) = seed (.map fields) b ++ c := by
      rw [seed, seed, overlay_of_le htemplate,
        overlay_of_le (by rw [List.length_append]; omega), List.drop_append_of_le_length htemplate,
        List.append_assoc]
    rw [hseed, write_map_append harranged hkeep]
    rw [seed, length_overlay]
    exact h
  | _ => exact htable.elim

/-! ## Contents -/

theorem drop_zeros (k n : Nat) : (zeros n).drop k = zeros (n - k) := List.drop_replicate

/-- Zeros in front of zeros are zeros. -/
theorem onFront_zeros (k n : Nat) : onFront k (fun r => zeros r.length) (zeros n) = zeros n := by
  rw [onFront, List.length_take, length_zeros, drop_zeros, ← zeros_add]
  congr 1
  omega

/-- A content that fits is followed by zeros only. -/
theorem writeContent_zeros {content : Bytes} {n : Nat} (h : capped cap content.length ≤ n) :
    (writeContent cap content (zeros n)).bytes
      = content.take (capped cap content.length)
        ++ zeros (n - capped cap content.length) := by
  -- what is filled up with zeros is part of the slot, which holds zeros already
  have hfilled : capped cap content.length
      ≤ min (cap.getD (capped cap content.length)) n := by
    cases cap with
    | none => exact le_min (le_refl _) h
    | some m => exact le_min (Nat.min_le_right _ _) h
  have hroom : min (cap.getD (capped cap content.length)) n ≤ n := Nat.min_le_right _ _
  rw [writeContent, length_zeros, Nat.min_eq_left h]
  generalize min (cap.getD (capped cap content.length)) n = filled at hfilled hroom
  dsimp only
  rw [drop_zeros, List.append_assoc, ← zeros_add]
  congr 2
  omega

/-- The content of a text or blob that is encoded on its own. -/
theorem seed_content {layout : Layout} (hfields : layout.fields? = none)
    (harray : ∀ item stride capacity, layout ≠ .array item stride capacity) (n : Nat) :
    seed layout (zeros n) = zeros n := by
  rw [seed_eq_onFront hfields harray, onFront_zeros]

theorem encodeOver_text_zeros {n : Nat} (h : encodedLength (.text cap) v ≤ n) :
    (encodeOver (.text cap) v (zeros n)).bytes
      = v.bytes.take (capped cap v.bytes.length) ++ zeros (n - capped cap v.bytes.length) := by
  rw [encodedLength] at h
  rw [encodeOver, amend, seed_content rfl (by simp), write, writeContent_zeros h]

theorem encodeOver_blob_zeros {n : Nat} (h : encodedLength (.blob cap) v ≤ n) :
    (encodeOver (.blob cap) v (zeros n)).bytes
      = v.bytes.take (capped cap v.bytes.length) ++ zeros (n - capped cap v.bytes.length) := by
  rw [encodedLength] at h
  rw [encodeOver, amend, seed_content rfl (by simp), write, writeContent_zeros h]

/-! ## Slots -/

/-- What a slot of the given length reads as, once a value has been written to it.  A blob keeps the
zeros that fill up its slot; any other value reads as it does on its own. -/
def slotValue (layout : Layout) (v : Value) (length : Nat) : Value :=
  match layout with
  | .blob cap =>
    .blob (v.bytes.take (capped cap v.bytes.length)
      ++ zeros (length - capped cap v.bytes.length))
  | _ => decode layout (toBytes layout v)

/-- Without a table, a value that is encoded on its own takes all bytes there are. -/
theorem length_write_fresh (htable : ¬ layout.IsTable) {u : Unsupplied}
    (hb : b.length = freshLength layout v) : (write u layout v b).length = b.length := by
  have hcontent : ∀ cap, b.length = Option.getD cap (capped cap v.bytes.length) →
      (writeContent cap v.bytes b).length = b.length := by
    intro cap hb
    unfold writeContent
    dsimp only
    cases cap with
    | none =>
      rw [Option.getD_none] at hb
      rw [Option.getD_none, ← hb, Nat.min_self, Nat.min_self]
    | some n =>
      rw [Option.getD_some] at hb ⊢
      rw [hb, Nat.min_self]
  unfold freshLength at hb
  cases layout with
  | primitive p =>
    have hwidth : b.length = p.width := hb
    rw [write, if_pos (le_of_eq hwidth.symm), hwidth]
  | text cap =>
    rw [encodedLength] at hb
    rw [write, hcontent cap hb]
  | blob cap =>
    rw [encodedLength] at hb
    rw [write, hcontent cap hb]
  | array item stride capacity =>
    have hregion : b.length = capacity * stride := hb
    rw [write, hregion]
    exact Nat.min_self _
  | packed p capacity =>
    have hregion : b.length = packedLength p capacity := hb
    rw [write, hregion]
    exact Nat.min_self _
  | object fields =>
    have hregion : b.length = fixedRegion fields := hb
    rw [write, if_neg (by omega), hregion]
  | _ => exact absurd True.intro htable

/-- So its bytes are all that there are. -/
theorem WellFormed.value_encodeOver (hwf : layout.WellFormed) (htable : ¬ layout.IsTable)
    (hb : b.length = freshLength layout v) :
    (encodeOver layout v b).value = (encodeOver layout v b).bytes := by
  have hseed : (seed layout b).length = freshLength layout v := (hwf.keepsLength.2 b).trans hb
  rw [Written.value, encodeOver, amend, length_write_fresh htable hseed]
  apply List.take_of_length_le
  rw [(hwf.keepsLength.1 _ _ _).1]

theorem toBytes_eq_bytes (hwf : layout.WellFormed) (htable : ¬ layout.IsTable) (v : Value) :
    toBytes layout v = (encodeOver layout v (zeros (freshLength layout v))).bytes :=
  hwf.value_encodeOver htable (length_zeros _)

theorem decode_text_overwrite {n : Nat} (h : encodedLength (.text cap) v ≤ n) :
    decode (.text cap) (encodeOver (.text cap) v (zeros n)).bytes
      = .text (contentText (v.bytes.take (capped cap v.bytes.length))) := by
  rw [encodeOver_text_zeros h, decode, contentText_append_zeros]

/-- Where all values have one size, a sound slot that has room for one has that size. -/
theorem Sound.length_eq_freshLength (h : Sound layout b) (htable : ¬ layout.IsTable)
    (htext : ∀ cap, layout ≠ .text cap) (hblob : ∀ cap, layout ≠ .blob cap)
    (hfits : encodedLength layout v ≤ b.length) : b.length = freshLength layout v := by
  cases h with
  | primitive hlength => exact hlength
  | text hcap => exact absurd rfl (htext _)
  | blob hcap => exact absurd rfl (hblob _)
  | array hlength =>
    rw [encodedLength] at hfits
    exact le_antisymm hlength hfits
  | packed hlength =>
    rw [encodedLength] at hfits
    exact le_antisymm hlength hfits
  | object hlength => exact hlength
  | _ => exact absurd True.intro htable

theorem encodedLength_le_of_fitsSlot {n : Nat} (h : fitsSlot layout v n = true) :
    encodedLength layout v ≤ n := by
  cases layout with
  | blob cap =>
    simp only [fitsSlot, Bool.or_eq_true, Bool.and_eq_true, beq_iff_eq, decide_eq_true_eq] at h
    omega
  | _ => simpa only [fitsSlot, decide_eq_true_eq] using h

/-- A blob in a sound slot reads to the end of the slot. -/
theorem decode_blob_overwrite (h : Sound (.blob cap) b)
    (hfits : encodedLength (.blob cap) v ≤ b.length) :
    decode (.blob cap) (encodeOver (.blob cap) v (zeros b.length)).bytes
      = slotValue (.blob cap) v b.length := by
  have hlength : (encodeOver (.blob cap) v (zeros b.length)).bytes.length = b.length := by
    rw [((WellFormed.blob cap).keepsLength.encodeOver v _).1, length_zeros]
  have hcap : b.length ≤ cap.getD b.length := by
    cases h with
    | blob hcap =>
      cases cap with
      | none => exact le_refl _
      | some m => exact hcap m rfl
  rw [decode, contentBytes, hlength, List.take_of_length_le (by omega),
    encodeOver_blob_zeros hfits, slotValue]

theorem freshLength_of_isTable (h : layout.IsTable) (v : Value) :
    freshLength layout v = encodedLength layout v := by
  cases layout with
  | vector item limit => rfl
  | dict key keyLength value => rfl
  | map fields => rfl
  | _ => exact h.elim

/-- A vector, dict or map in a longer slot reads as it does on its own. -/
theorem decode_table_overwrite (hwf : layout.WellFormed) (htable : layout.IsTable) {n : Nat}
    (hfits : encodedLength layout v ≤ n) (hsmall : n < 2 ^ 32) :
    decode layout (encodeOver layout v (zeros n)).bytes = decode layout (toBytes layout v) := by
  have hfresh : freshLength layout v = encodedLength layout v := freshLength_of_isTable htable v
  -- the slot is what the value needs, with zeros behind it
  have hroom : zeros n = zeros (encodedLength layout v) ++ zeros (n - encodedLength layout v) := by
    rw [← zeros_add, Nat.add_sub_cancel' hfits]
  have hle := hwf.length_toBytes_le v
  rw [hroom, encodeOver_append hwf htable (by rw [length_zeros]), ← Written.value_append_drop
    (encodeOver layout v (zeros (encodedLength layout v))), List.append_assoc, ← hfresh]
  exact (hwf.sound_toBytes v).decode_append hwf htable (by omega) _

/-- **Overwriting.**  A sound slot that is overwritten by a value that fits reads as that value does
on its own. -/
theorem Sound.decode_overwrite (h : Sound layout b) (hwf : layout.WellFormed)
    (hfits : fitsSlot layout v b.length = true) (hsmall : b.length < 2 ^ 32) :
    decode layout (encodeOver layout v (zeros b.length)).bytes = slotValue layout v b.length := by
  have hroom := encodedLength_le_of_fitsSlot hfits
  by_cases htable : layout.IsTable
  · rw [decode_table_overwrite hwf htable hroom hsmall]
    cases layout with
    | blob cap => exact htable.elim
    | _ => rfl
  · cases layout with
    | blob cap => exact decode_blob_overwrite h hroom
    | text cap =>
      show decode _ _ = decode (.text cap) (toBytes (.text cap) v)
      -- the zeros behind a text do not count, here or there
      rw [decode_text_overwrite hroom, toBytes_eq_bytes hwf htable, decode_text_overwrite]
      rw [freshLength, fixedLength?, encodedLength]
      cases cap with
      | none => exact le_refl _
      | some m => exact Nat.min_le_right _ _
    | _ =>
      -- the slot has the size of the layout, so the same bytes are written as on its own
      have hlength := h.length_eq_freshLength htable (by simp) (by simp) hroom
      rw [slotValue, toBytes_eq_bytes hwf htable, hlength]
      all_goals simp

end Layout

end BinarySchema
