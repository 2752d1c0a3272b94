/-
# Text that is cut off

Where the bytes of a text are cut off in the middle of a character, that character reads as the
replacement character, which may take more bytes than there was room for.  Cutting what was read at
the same place gives it again (`Text.cut_cut`), and it is no shorter than the room
(`Text.le_length_utf8_cut`).  So what a slot holds of a text is read back from the slot
(`Layout.contentText_cut`).
-/
import BinarySchema.Proofs.Text

namespace BinarySchema

namespace Text

/-! ## Characters -/

/-- A character of which not all bytes are there reads as the replacement character. -/
theorem decodeFrom_take_utf8EncodeChar {c : Char} {k : Nat} (hpos : 0 < k)
    (hk : k < (String.utf8EncodeChar c).length) :
    decodeFrom none ((String.utf8EncodeChar c).take k) = [replacement] := by
  have hvalid := toNat_valid c
  have h80 : (0x80 : UInt8).toNat = 0x80 := rfl
  have hbf : (0xBF : UInt8).toNat = 0xbf := rfl
  have hend : ∀ p, decodeFrom (some p) [] = [replacement] := fun p => by rw [decodeFrom]
  rw [String.utf8EncodeChar] at hk ⊢
  generalize c.val.toNat = v at hvalid hk ⊢
  obtain ⟨k, rfl⟩ := Nat.exists_eq_succ_of_ne_zero (Nat.ne_of_gt hpos)
  split_ifs at hk ⊢ with h1 h2 h3 <;> simp only [List.length_cons, List.length_nil] at hk
  · omega
  · obtain rfl : k = 0 := by omega
    rw [List.take_succ_cons, List.take_zero,
      decodeFrom_start (by omega) (by omega) (start?_two (by omega) h2), hend]
  · obtain ⟨low, high, hstart, hlow, hhigh⟩ := start?_three (v := v) (by omega) h3 (by omega)
    rw [List.take_succ_cons, decodeFrom_start (by omega) (by omega) hstart]
    rcases (by omega : k = 0 ∨ k = 1) with rfl | rfl
    · rw [List.take_zero, hend]
    · rw [List.take_succ_cons, List.take_zero, decodeFrom_middle (by omega) hlow hhigh, hend]
  · obtain ⟨low, high, hstart, hlow, hhigh⟩ := start?_four (v := v) (by omega) (by omega)
    rw [List.take_succ_cons, decodeFrom_start (by omega) (by omega) hstart]
    rcases (by omega : k = 0 ∨ k = 1 ∨ k = 2) with rfl | rfl | rfl
    · rw [List.take_zero, hend]
    · rw [List.take_succ_cons, List.take_zero, decodeFrom_middle (by omega) hlow hhigh, hend]
    · rw [List.take_succ_cons, List.take_succ_cons, List.take_zero,
        decodeFrom_middle (by omega) hlow hhigh,
        decodeFrom_middle (by omega) (by omega) (by omega), hend]

/-- The replacement character has three bytes. -/
theorem length_utf8EncodeChar_replacement : (String.utf8EncodeChar replacement).length = 3 := by
  decide

/-- The replacement character is read again from as many of its bytes as there were of a character
that was cut off. -/
theorem decodeFrom_take_replacement {c : Char} {k : Nat} (hpos : 0 < k)
    (hk : k < (String.utf8EncodeChar c).length) :
    k ≤ (String.utf8EncodeChar replacement).length
      ∧ decodeFrom none ((String.utf8EncodeChar replacement).take k) = [replacement] := by
  have hfour : (String.utf8EncodeChar c).length ≤ 4 := by
    rw [String.length_utf8EncodeChar]
    exact c.utf8Size_le_four
  have hthree := length_utf8EncodeChar_replacement
  refine ⟨by omega, ?_⟩
  rcases (by omega : k < 3 ∨ k = 3) with hshort | rfl
  · exact decodeFrom_take_utf8EncodeChar hpos (by omega)
  · have hwhole := decodeFrom_flatMap [replacement]
    rw [List.flatMap_singleton] at hwhole
    rw [List.take_of_length_le (le_of_eq hthree), hwhole]

/-- What is read of the first bytes of a text: it takes up at least as many bytes, and is read again
from so many of them. -/
theorem exists_decodeFrom_take (cs : List Char) {n : Nat}
    (hn : n ≤ (cs.flatMap String.utf8EncodeChar).length) :
    ∃ ds, decodeFrom none ((cs.flatMap String.utf8EncodeChar).take n) = ds
      ∧ n ≤ (ds.flatMap String.utf8EncodeChar).length
      ∧ decodeFrom none ((ds.flatMap String.utf8EncodeChar).take n) = ds
      ∧ ∀ d ∈ ds, d ∈ cs ∨ d = replacement := by
  induction cs generalizing n with
  | nil =>
    obtain rfl : n = 0 := Nat.le_zero.mp hn
    exact ⟨[], rfl, le_refl _, rfl, fun d hd => absurd hd List.not_mem_nil⟩
  | cons c cs ih =>
    rw [List.flatMap_cons, List.length_append] at hn
    rw [List.flatMap_cons]
    rcases Nat.lt_or_ge n (String.utf8EncodeChar c).length with hcut | hwhole
    · rw [List.take_append_of_le_length (le_of_lt hcut)]
      rcases Nat.eq_zero_or_pos n with rfl | hpos
      · exact ⟨[], rfl, le_refl _, rfl, fun d hd => absurd hd List.not_mem_nil⟩
      · obtain ⟨hroom, hagain⟩ := decodeFrom_take_replacement hpos hcut
        refine ⟨[replacement], decodeFrom_take_utf8EncodeChar hpos hcut, ?_, ?_, ?_⟩
        · rwa [List.flatMap_singleton]
        · rwa [List.flatMap_singleton]
        · exact fun d hd => Or.inr (List.mem_singleton.mp hd)
    · -- the first character is whole, and the cut is in the others
      obtain ⟨more, rfl⟩ := Nat.exists_eq_add_of_le hwhole
      obtain ⟨ds, hread, hroom, hagain, hmem⟩ := ih (n := more) (by omega)
      refine ⟨c :: ds, ?_, ?_, ?_, ?_⟩
      · rw [List.take_length_add_append, decodeFrom_utf8EncodeChar, hread]
      · rw [List.flatMap_cons, List.length_append]
        omega
      · rw [List.flatMap_cons, List.take_length_add_append, decodeFrom_utf8EncodeChar, hagain]
      · intro d hd
        rcases List.mem_cons.mp hd with rfl | hd
        · exact Or.inl List.mem_cons_self
        · exact (hmem d hd).imp_left (List.mem_cons_of_mem c)

/-! ## Texts -/

/-- What is read of the first `n` bytes of a text. -/
def cut (s : String) (n : Nat) : String := ofUtf8 ((utf8 s).take n)

theorem cut_of_le {s : String} {n : Nat} (h : (utf8 s).length ≤ n) : cut s n = s := by
  rw [cut, List.take_of_length_le h, ofUtf8_utf8]

theorem exists_cut (s : String) {n : Nat} (hn : n ≤ (utf8 s).length) :
    n ≤ (utf8 (cut s n)).length ∧ cut (cut s n) n = cut s n
      ∧ ∀ d ∈ (cut s n).toList, d ∈ s.toList ∨ d = replacement := by
  obtain ⟨ds, hread, hroom, hagain, hmem⟩ := exists_decodeFrom_take s.toList hn
  have hcut : cut s n = String.ofList ds := by rw [cut, ofUtf8, utf8, hread]
  have hutf8 : utf8 (String.ofList ds) = ds.flatMap String.utf8EncodeChar := by
    rw [utf8, String.toList_ofList]
  rw [hcut, hutf8, String.toList_ofList]
  exact ⟨hroom, by rw [cut, ofUtf8, hutf8, hagain], hmem⟩

/-- A text that has been cut off takes at least as many bytes as there was room for. -/
theorem le_length_utf8_cut {s : String} {n : Nat} (hn : n ≤ (utf8 s).length) :
    n ≤ (utf8 (cut s n)).length :=
  (exists_cut s hn).1

/-- **Cutting again.**  A text that has been cut off is not changed by cutting it at the same place. -/
theorem cut_cut (s : String) (n : Nat) : cut (cut s n) n = cut s n := by
  rcases Nat.le_total n (utf8 s).length with hn | hn
  · exact (exists_cut s hn).2.1
  · rw [cut_of_le hn, cut_of_le hn]

/-- Cutting a text off brings in no null character. -/
theorem nul_notMem_cut {s : String} (hs : Char.ofNat 0 ∉ s.toList) (n : Nat) :
    Char.ofNat 0 ∉ (cut s n).toList := by
  rcases Nat.le_total n (utf8 s).length with hn | hn
  · intro hmem
    rcases (exists_cut s hn).2.2 _ hmem with h | h
    · exact hs h
    · exact absurd h (by decide)
  · rwa [cut_of_le hn]

/-! ## Null characters -/

/-- The text up to the first null character. -/
def beforeNul (s : String) : String := String.ofList (s.toList.takeWhile fun c => c != Char.ofNat 0)

theorem nul_notMem_beforeNul (s : String) : Char.ofNat 0 ∉ (beforeNul s).toList := by
  rw [beforeNul, String.toList_ofList]
  intro h
  simpa using List.mem_takeWhile_imp h

theorem beforeNul_of_notMem {s : String} (hs : Char.ofNat 0 ∉ s.toList) : beforeNul s = s := by
  have hall : s.toList.takeWhile (fun c => c != Char.ofNat 0) = s.toList := by
    rw [List.takeWhile_eq_self_iff]
    intro c hc
    rw [bne_iff_ne]
    rintro rfl
    exact hs hc
  rw [beforeNul, hall, String.ofList_toList]

/-- The zero bytes of a text are its null characters. -/
theorem takeWhile_utf8 (s : String) :
    (utf8 s).takeWhile (fun x => x != 0) = utf8 (beforeNul s) := by
  rw [beforeNul, utf8, utf8, String.toList_ofList]
  induction s.toList with
  | nil => rfl
  | cons c cs ih =>
    by_cases hc : c = Char.ofNat 0
    · rw [List.takeWhile_cons_of_neg (by simp [hc]), hc]
      rfl
    · have hall : ∀ x ∈ String.utf8EncodeChar c, (x != 0) = true := fun x hx =>
        bne_iff_ne.mpr (ne_zero_of_mem_utf8EncodeChar hc hx)
      rw [List.takeWhile_cons_of_pos (by simpa using hc), List.flatMap_cons, List.flatMap_cons,
        List.takeWhile_append_of_pos hall, ih]

end Text

/-! ## Text in a slot -/

namespace Layout

/-- The content of the first bytes is made up of the first bytes of the content. -/
theorem takeWhile_take {α : Type} (p : α → Bool) (b : List α) (n : Nat) :
    (b.take n).takeWhile p = (b.takeWhile p).take n := by
  induction b generalizing n with
  | nil => rw [List.take_nil, List.takeWhile_nil, List.take_nil]
  | cons x b ih =>
    cases n with
    | zero => rw [List.take_zero, List.take_zero, List.takeWhile_nil]
    | succ n =>
      rw [List.take_succ_cons, List.takeWhile_cons, List.takeWhile_cons]
      cases p x
      · rfl
      · exact congrArg (x :: ·) (ih n)

/-- What is read of a text that is cut off and followed by zeros. -/
theorem contentText_take_utf8 (s : String) (n m : Nat) :
    contentText ((Text.utf8 s).take n ++ zeros m) = Text.cut (Text.beforeNul s) n := by
  rw [contentText_append_zeros, contentText, takeWhile_take, Text.takeWhile_utf8, Text.cut]

/-- **Slots.**  What has been read of a text in a slot is read again from that slot. -/
theorem contentText_cut (s : String) (n m : Nat) :
    contentText ((Text.utf8 (Text.cut (Text.beforeNul s) n)).take n ++ zeros m)
      = Text.cut (Text.beforeNul s) n := by
  have hnul := Text.nul_notMem_cut (Text.nul_notMem_beforeNul s) n
  rw [contentText_take_utf8, Text.beforeNul_of_notMem hnul, Text.cut_cut]

end Layout

end BinarySchema
