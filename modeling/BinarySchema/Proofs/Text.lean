/-
# Text survives its bytes

Reading the UTF-8 bytes of a text gives the text back (`ofUtf8_utf8`).  A character other than the
null character has no zero byte, so that text without that character is found again when zeros are
put behind it (`contentText_utf8`).
-/
import BinarySchema.Proofs.Bytes
import BinarySchema.Layout.Decode

namespace BinarySchema

namespace Text

/-! ## One step of the reader -/

/-- A byte as it is made from a number that fits it. -/
theorem toNat_byte {n : Nat} (h : n < 256) : (UInt8.ofNat n).toNat = n :=
  UInt8.toNat_ofNat_of_lt' h

/-- A byte below `0x80` is a character of its own. -/
theorem decodeFrom_ascii {n : Nat} (h : n < 0x80) (rest : Bytes) :
    decodeFrom none (UInt8.ofNat n :: rest) = Char.ofNat n :: decodeFrom none rest := by
  have hn := toNat_byte (n := n) (by omega)
  rw [decodeFrom, begin, if_pos (by omega), hn]
  rfl

/-- A byte that begins a character puts it under way. -/
theorem decodeFrom_start {n : Nat} (hn : n < 256) (h : 0x80 ≤ n) {p : PartialChar}
    (hp : PartialChar.start? (UInt8.ofNat n) = some p) (rest : Bytes) :
    decodeFrom none (UInt8.ofNat n :: rest) = decodeFrom (some p) rest := by
  have hnat := toNat_byte hn
  rw [decodeFrom, begin, if_neg (by omega), hp]
  rfl

/-- The last byte of a character completes it. -/
theorem decodeFrom_last {low high : UInt8} {point n : Nat} (hn : n < 64)
    (hlow : low.toNat ≤ n + 0x80) (hhigh : n + 0x80 ≤ high.toNat) (rest : Bytes) :
    decodeFrom (some ⟨1, low, high, point⟩) (UInt8.ofNat (n + 0x80) :: rest)
      = Char.ofNat (point * 64 + n) :: decodeFrom none rest := by
  have hnat := toNat_byte (n := n + 0x80) (by omega)
  rw [decodeFrom, if_pos ⟨by rw [UInt8.le_iff_toNat_le, hnat]; exact hlow,
    by rw [UInt8.le_iff_toNat_le, hnat]; exact hhigh⟩]
  simp only [PartialChar.push, hnat, Nat.sub_self, if_true, Nat.add_sub_cancel]

/-- A byte in the middle of a character extends it. -/
theorem decodeFrom_middle {missing : Nat} {low high : UInt8} {point n : Nat} (hn : n < 64)
    (hlow : low.toNat ≤ n + 0x80) (hhigh : n + 0x80 ≤ high.toNat) (rest : Bytes) :
    decodeFrom (some ⟨missing + 2, low, high, point⟩) (UInt8.ofNat (n + 0x80) :: rest)
      = decodeFrom (some ⟨missing + 1, 0x80, 0xBF, point * 64 + n⟩) rest := by
  have hnat := toNat_byte (n := n + 0x80) (by omega)
  rw [decodeFrom, if_pos ⟨by rw [UInt8.le_iff_toNat_le, hnat]; exact hlow,
    by rw [UInt8.le_iff_toNat_le, hnat]; exact hhigh⟩]
  simp only [PartialChar.push, hnat, Nat.add_sub_cancel]
  rw [if_neg (by omega)]
  rfl

/-! ## The bytes that begin a character -/

theorem start?_two {v : Nat} (h : 0x7f < v) (h' : v ≤ 0x7ff) :
    PartialChar.start? (UInt8.ofNat (v / 64 % 32 + 0xc0)) = some ⟨1, 0x80, 0xBF, v / 64⟩ := by
  have hnat := toNat_byte (n := v / 64 % 32 + 0xc0) (by omega)
  have hpoint : v / 64 % 32 + 0xc0 - 0xC0 = v / 64 := by omega
  rw [PartialChar.start?, hnat, if_pos (by omega), hpoint]

/-- The bounds on the second of three bytes admit it, the code point being no surrogate. -/
theorem start?_three {v : Nat} (h : 0x7ff < v) (h' : v ≤ 0xffff)
    (hv : v < 0xd800 ∨ 0xdfff < v) :
    ∃ low high, PartialChar.start? (UInt8.ofNat (v / 4096 % 16 + 0xe0))
        = some ⟨2, low, high, v / 4096⟩
      ∧ low.toNat ≤ v / 64 % 64 + 0x80 ∧ v / 64 % 64 + 0x80 ≤ high.toNat := by
  have hnat := toNat_byte (n := v / 4096 % 16 + 0xe0) (by omega)
  have h80 : (0x80 : UInt8).toNat = 0x80 := rfl
  have h9f : (0x9F : UInt8).toNat = 0x9f := rfl
  have ha0 : (0xA0 : UInt8).toNat = 0xa0 := rfl
  have hbf : (0xBF : UInt8).toNat = 0xbf := rfl
  rw [PartialChar.start?, hnat, if_neg (by omega)]
  by_cases hfirst : v / 4096 = 0
  · rw [if_pos (by omega)]
    exact ⟨0xA0, 0xBF, by rw [hfirst], by omega, by omega⟩
  · rw [if_neg (by omega)]
    by_cases hlast : v / 4096 = 0xd
    · rw [if_pos (by omega)]
      exact ⟨0x80, 0x9F, by rw [hlast], by omega, by omega⟩
    · have hpoint : v / 4096 % 16 + 0xe0 - 0xE0 = v / 4096 := by omega
      rw [if_neg (by omega), if_pos (by omega), hpoint]
      exact ⟨0x80, 0xBF, rfl, by omega, by omega⟩

/-- The bounds on the second of four bytes admit it. -/
theorem start?_four {v : Nat} (h : 0xffff < v) (h' : v < 0x110000) :
    ∃ low high, PartialChar.start? (UInt8.ofNat (v / 262144 % 8 + 0xf0))
        = some ⟨3, low, high, v / 262144⟩
      ∧ low.toNat ≤ v / 4096 % 64 + 0x80 ∧ v / 4096 % 64 + 0x80 ≤ high.toNat := by
  have hnat := toNat_byte (n := v / 262144 % 8 + 0xf0) (by omega)
  have h80 : (0x80 : UInt8).toNat = 0x80 := rfl
  have h8f : (0x8F : UInt8).toNat = 0x8f := rfl
  have h90 : (0x90 : UInt8).toNat = 0x90 := rfl
  have hbf : (0xBF : UInt8).toNat = 0xbf := rfl
  rw [PartialChar.start?, hnat, if_neg (by omega), if_neg (by omega), if_neg (by omega),
    if_neg (by omega)]
  by_cases hfirst : v / 262144 = 0
  · rw [if_pos (by omega)]
    exact ⟨0x90, 0xBF, by rw [hfirst], by omega, by omega⟩
  · rw [if_neg (by omega)]
    by_cases hlast : v / 262144 = 4
    · rw [if_pos (by omega)]
      exact ⟨0x80, 0x8F, by rw [hlast], by omega, by omega⟩
    · have hpoint : v / 262144 % 8 + 0xf0 - 0xF0 = v / 262144 := by omega
      rw [if_neg (by omega), if_pos (by omega), hpoint]
      exact ⟨0x80, 0xBF, rfl, by omega, by omega⟩

/-! ## Whole characters -/

/-- A code point below the surrogates or above them. -/
theorem toNat_valid (c : Char) :
    c.val.toNat < 0xd800 ∨ 0xdfff < c.val.toNat ∧ c.val.toNat < 0x110000 :=
  c.valid

/-- The bytes of a character read as the character. -/
theorem decodeFrom_utf8EncodeChar (c : Char) (rest : Bytes) :
    decodeFrom none (String.utf8EncodeChar c ++ rest) = c :: decodeFrom none rest := by
  have hvalid := toNat_valid c
  have hc : Char.ofNat c.val.toNat = c := Char.ofNat_toNat c
  have h80 : (0x80 : UInt8).toNat = 0x80 := rfl
  have hbf : (0xBF : UInt8).toNat = 0xbf := rfl
  rw [String.utf8EncodeChar]
  generalize c.val.toNat = v at hvalid hc
  split_ifs with h1 h2 h3
  · rw [List.cons_append, List.nil_append, decodeFrom_ascii (by omega), hc]
  · simp only [List.cons_append, List.nil_append]
    rw [decodeFrom_start (by omega) (by omega) (start?_two (by omega) h2),
      decodeFrom_last (by omega) (by omega) (by omega), Nat.div_add_mod' v 64, hc]
  · obtain ⟨low, high, hstart, hlow, hhigh⟩ := start?_three (v := v) (by omega) h3 (by omega)
    simp only [List.cons_append, List.nil_append]
    rw [decodeFrom_start (by omega) (by omega) hstart, decodeFrom_middle (by omega) hlow hhigh,
      decodeFrom_last (by omega) (by omega) (by omega),
      show (v / 4096 * 64 + v / 64 % 64) * 64 + v % 64 = v by omega, hc]
  · obtain ⟨low, high, hstart, hlow, hhigh⟩ := start?_four (v := v) (by omega) (by omega)
    simp only [List.cons_append, List.nil_append]
    rw [decodeFrom_start (by omega) (by omega) hstart, decodeFrom_middle (by omega) hlow hhigh,
      decodeFrom_middle (by omega) (by omega) (by omega),
      decodeFrom_last (by omega) (by omega) (by omega),
      show ((v / 262144 * 64 + v / 4096 % 64) * 64 + v / 64 % 64) * 64 + v % 64 = v by omega, hc]

/-- Every byte of a character is positive, unless the character is the null character. -/
theorem ne_zero_of_mem_utf8EncodeChar {c : Char} (hc : c ≠ Char.ofNat 0) {x : UInt8}
    (hx : x ∈ String.utf8EncodeChar c) : x ≠ 0 := by
  have hpos : c.val.toNat ≠ 0 := by
    intro h
    exact hc (by rw [← h]; exact (Char.ofNat_toNat c).symm)
  have hbyte : ∀ n : Nat, 0 < n → n < 256 → UInt8.ofNat n ≠ 0 := by
    intro n h0 h1 h
    have hnat := toNat_byte h1
    rw [h] at hnat
    exact absurd hnat (by rw [show (0 : UInt8).toNat = 0 from rfl]; omega)
  rw [String.utf8EncodeChar] at hx
  generalize c.val.toNat = v at hx hpos
  split_ifs at hx with h1 h2 h3 <;>
    simp only [List.mem_cons, List.not_mem_nil, or_false] at hx
  · rw [hx]
    exact hbyte _ (by omega) (by omega)
  · rcases hx with rfl | rfl <;> exact hbyte _ (by omega) (by omega)
  · rcases hx with rfl | rfl | rfl <;> exact hbyte _ (by omega) (by omega)
  · rcases hx with rfl | rfl | rfl | rfl <;> exact hbyte _ (by omega) (by omega)

/-! ## Whole texts -/

theorem decodeFrom_flatMap (cs : List Char) :
    decodeFrom none (cs.flatMap String.utf8EncodeChar) = cs := by
  induction cs with
  | nil => rfl
  | cons c cs ih => rw [List.flatMap_cons, decodeFrom_utf8EncodeChar, ih]

/-- The bytes of a text read as the text. -/
theorem ofUtf8_utf8 (s : String) : ofUtf8 (utf8 s) = s := by
  rw [ofUtf8, utf8, decodeFrom_flatMap, String.ofList_toList]

/-- A text without the null character has no zero byte. -/
theorem ne_zero_of_mem_utf8 {s : String} (hs : Char.ofNat 0 ∉ s.toList) {x : UInt8}
    (hx : x ∈ utf8 s) : x ≠ 0 := by
  rw [utf8, List.mem_flatMap] at hx
  obtain ⟨c, hc, hx⟩ := hx
  exact ne_zero_of_mem_utf8EncodeChar (fun h => hs (h ▸ hc)) hx

end Text

/-! ## Text in a slot -/

namespace Layout

theorem takeWhile_append_zeros (b : Bytes) (n : Nat) :
    (b ++ zeros n).takeWhile (fun x => x != 0) = b.takeWhile (fun x => x != 0) := by
  induction b with
  | nil => cases n <;> rfl
  | cons x b ih => rw [List.cons_append, List.takeWhile_cons, List.takeWhile_cons, ih]

/-- Zeros behind a content change nothing about the text in it. -/
theorem contentText_append_zeros (b : Bytes) (n : Nat) :
    contentText (b ++ zeros n) = contentText b := by
  rw [contentText, contentText, takeWhile_append_zeros]

/-- A text without the null character is found again in front of zeros. -/
theorem contentText_utf8 {s : String} (hs : Char.ofNat 0 ∉ s.toList) (n : Nat) :
    contentText (Text.utf8 s ++ zeros n) = s := by
  have hall : (Text.utf8 s).takeWhile (fun x => x != 0) = Text.utf8 s := by
    rw [List.takeWhile_eq_self_iff]
    intro x hx
    exact bne_iff_ne.mpr (Text.ne_zero_of_mem_utf8 hs hx)
  rw [contentText_append_zeros, contentText, hall, Text.ofUtf8_utf8]

end Layout

end BinarySchema
