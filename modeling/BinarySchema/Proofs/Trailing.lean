/-
# Bytes behind a value of fixed size

A value whose layout has one size for all values is read from its first bytes only, whatever stands
behind them (`decode_take`).  There are two exceptions.  A text reads on to the first zero, and so
reads bytes behind its cap unless a zero is found by then (`decode_text_reads_on`); and a packed
array with so many items that its size is no 64-bit number has more slots than its size admits.
-/
import BinarySchema.Proofs.ReadSchema
import BinarySchema.Proofs.Sound

namespace BinarySchema

namespace Layout

variable {layout : Layout} {b : Bytes} {n : Nat}

/-- The end of a value of `n` bytes shows where it is read: a text is followed by a zero, unless the
byte string ends with it, and the size of a packed array is a 64-bit number. -/
def ShowsEnd (n : Nat) : Layout → Bytes → Prop
  | .text _, b => b.length = n ∨ (0 : UInt8) ∈ b.take (n + 1)
  | .packed p capacity, _ => capacity * p.width < UInt64.size
  | _, _ => True

instance (n : Nat) (layout : Layout) (b : Bytes) : Decidable (ShowsEnd n layout b) := by
  cases layout <;> unfold ShowsEnd <;> infer_instance

/-! ## Contents -/

/-- The content of a text ends at a zero, so what stands behind one does not count. -/
theorem contentText_append_of_mem {a : Bytes} (h : (0 : UInt8) ∈ a) (c : Bytes) :
    contentText (a ++ c) = contentText a := by
  have hstop : (a ++ c).takeWhile (fun byte => byte != 0) = a.takeWhile fun byte => byte != 0 := by
    induction a with
    | nil => exact absurd h List.not_mem_nil
    | cons byte a ih =>
      rw [List.cons_append]
      by_cases hzero : byte = 0
      · rw [List.takeWhile_cons_of_neg (by simp [hzero]), List.takeWhile_cons_of_neg (by simp [hzero])]
      · have hrest : (0 : UInt8) ∈ a := (List.mem_cons.mp h).resolve_left (Ne.symm hzero)
        rw [List.takeWhile_cons_of_pos (by simpa using hzero),
          List.takeWhile_cons_of_pos (by simpa using hzero), ih hrest]
  rw [contentText, contentText, hstop]

/-- A text whose end shows is read from its first bytes only. -/
theorem contentText_take (h : b.length = n ∨ (0 : UInt8) ∈ b.take (n + 1)) :
    contentText (b.take n) = contentText b := by
  rcases h with hlength | hzero
  · rw [List.take_of_length_le (le_of_eq hlength)]
  by_cases hbefore : (0 : UInt8) ∈ b.take n
  · have hsplit := contentText_append_of_mem hbefore (b.drop n)
    rw [List.take_append_drop] at hsplit
    exact hsplit.symm
  · -- the zero is the first byte behind the value
    rw [List.take_add_one, List.mem_append, Option.mem_toList] at hzero
    obtain ⟨hn, hget⟩ := List.getElem?_eq_some_iff.mp (hzero.resolve_left hbefore)
    have hall : ∀ byte ∈ b.take n, (byte != 0) = true := by
      intro byte hbyte
      rw [bne_iff_ne]
      rintro rfl
      exact hbefore hbyte
    have hwhole : b.takeWhile (fun byte => byte != 0) = b.take n := by
      conv_lhs => rw [← List.take_append_drop n b, List.drop_eq_getElem_cons hn, hget]
      rw [List.takeWhile_append_of_pos hall, List.takeWhile_cons_of_neg (by simp), List.append_nil]
    rw [contentText, contentText, hwhole, List.takeWhile_eq_self_iff.mpr hall]

/-! ## Slots -/

theorem decode_array_take (item : Layout) {stride capacity : Nat}
    (h : capacity * stride ≤ b.length) :
    decode (.array item stride capacity) (b.take (capacity * stride))
      = decode (.array item stride capacity) b := by
  have htaken : capacity * stride ≤ (b.take (capacity * stride)).length := by
    rw [List.length_take, Nat.min_eq_left h]
  rw [decode_array, decode_array, slotCount_eq_capacity h, slotCount_eq_capacity htaken]
  congr 1
  apply List.map_congr_left
  intro i hi
  have hfits : (⟨i * stride, stride⟩ : Span).Fits (b.take (capacity * stride)) :=
    fits_slot (by rw [slotCount_eq_capacity htaken]; exact List.mem_range.mp hi)
  rw [← Span.slice_append hfits, List.take_append_drop]

theorem decode_packed_take {p : Primitive} {capacity : Nat}
    (hsize : capacity * p.width < UInt64.size) (h : packedLength p capacity ≤ b.length) :
    decode (.packed p capacity) (b.take (packedLength p capacity))
      = decode (.packed p capacity) b := by
  have hlength : packedLength p capacity = capacity * p.width := packedLength_eq hsize
  rw [hlength] at h ⊢
  have htaken : capacity * p.width ≤ (b.take (capacity * p.width)).length := by
    rw [List.length_take, Nat.min_eq_left h]
  rw [decode_packed, decode_packed, slotCount_eq_capacity h, slotCount_eq_capacity htaken]
  congr 1
  apply List.map_congr_left
  intro i hi
  have hfits : (⟨i * p.width, p.width⟩ : Span).Fits (b.take (capacity * p.width)) :=
    fits_slot (by rw [slotCount_eq_capacity htaken]; exact List.mem_range.mp hi)
  have hslice := Span.slice_append hfits (b.drop (capacity * p.width))
  rw [List.take_append_drop] at hslice
  have hoffset : packedOffset p i = i * p.width := packedOffset_eq
    (lt_of_le_of_lt (Nat.mul_le_mul_right _ (le_of_lt (List.mem_range.mp hi))) hsize)
  rw [hoffset, ← Primitive.read_take, ← Primitive.read_take p (b.drop _)]
  exact congrArg p.read hslice.symm

/-! ## All layouts of fixed size -/

/-- **Trailing bytes.**  A value of fixed size takes its first bytes and is read from them only,
where its end shows. -/
theorem decode_take (hlayout : layout.IsCompiled) (hn : layout.fixedLength? = some n)
    (hb : n ≤ b.length) (hend : ShowsEnd n layout b) :
    usedLength layout b = n ∧ decode layout b = decode layout (b.take n) := by
  have hwf := hlayout.wellFormed
  constructor
  · cases layout with
    | vector item limit => cases hn
    | dict key keyLength value => cases hn
    | map fields => cases hn
    | _ =>
      rw [usedLength, hn]
      · exact Nat.min_eq_left hb
      all_goals simp
  · cases layout with
    | primitive p =>
      cases hn
      rw [decode, decode, Primitive.read_take]
    | text cap => rw [decode, decode, contentText_take hend]
    | blob cap =>
      obtain rfl : cap = some n := hn
      rw [decode, decode, contentBytes, contentBytes, Option.getD_some, Option.getD_some,
        List.take_take, Nat.min_self]
    | array item stride capacity =>
      cases hn
      exact (decode_array_take item hb).symm
    | packed p capacity =>
      cases hn
      exact (decode_packed_take hend hb).symm
    | object fields =>
      cases hn
      cases id hwf with
      | object hparts harranged hfixed hnames =>
        have hsound : Sound (.object fields) (b.take (fixedRegion fields)) := by
          apply Sound.object
          rw [List.length_take, Nat.min_eq_left hb]
        have happend := hsound.decode_record_append hwf rfl hnames (b.drop (fixedRegion fields))
        rw [List.take_append_drop] at happend
        exact happend
    | _ => cases hn

/-- A text of at most two bytes, with a zero and another text behind it. -/
theorem decode_take_text :
    usedLength (.text (some 2)) [97, 98, 0, 99] = 2
      ∧ decode (.text (some 2)) [97, 98, 0, 99]
        = decode (.text (some 2)) (List.take 2 [97, 98, 0, 99]) := by
  have hcompiled : (Layout.text (some 2)).IsCompiled := .of_eval ⟨0⟩
    (.object [("type", .text "string"), ("maxLength", .number (.natural 2))]) (by cbv)
  exact decode_take hcompiled rfl (by decide) (by decide)

/-- A text at its cap reads on into the byte behind it. -/
theorem decode_text_reads_on :
    ¬ ∀ (layout : Layout) (n : Nat) (b : Bytes), layout.IsCompiled →
      layout.fixedLength? = some n → n ≤ b.length → decode layout b = decode layout (b.take n) := by
  intro h
  have hcompiled : (Layout.text (some 2)).IsCompiled := .of_eval ⟨0⟩
    (.object [("type", .text "string"), ("maxLength", .number (.natural 2))]) (by cbv)
  have heq := h (.text (some 2)) 2 [97, 98, 99] hcompiled rfl (by decide)
  rw [decode, decode, Value.text.injEq] at heq
  revert heq
  decide

end Layout

end BinarySchema
