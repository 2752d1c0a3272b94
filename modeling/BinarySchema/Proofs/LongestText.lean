/-
# What a slot keeps of a text

A slot keeps the longest beginning of a text whose characters all fit (`Text.fitting`).  Where the next
character is cut off, what is there of it reads as one replacement character (`Text.cut_eq`), which
may take more bytes than there was room for.  This is what a text with a cap is read as, wherever it
has been stored, and it is read again once it is stored again (`Layout.decode_cutText`).
-/
import BinarySchema.Proofs.Settled
import BinarySchema.Proofs.Splice

namespace BinarySchema

namespace Text

variable {s p : String} {cs ps : List Char} {n : Nat}

/-! ## The longest beginning that fits -/

/-- `p` is the longest beginning of `s` that takes at most `n` bytes. -/
structure IsLongestFit (s : String) (n : Nat) (p : String) : Prop where
  begins : p.toList <+: s.toList
  fits : (utf8 p).length ≤ n
  longest (q : String) : q.toList <+: s.toList → (utf8 q).length ≤ n → q.toList <+: p.toList

/-- The characters, up to the first one that does not fit into `n` bytes any more. -/
def fitting : (n : Nat) → List Char → List Char
  | _, [] => []
  | n, c :: cs =>
    if (String.utf8EncodeChar c).length ≤ n
    then c :: fitting (n - (String.utf8EncodeChar c).length) cs else []

theorem fitting_isPrefix (n : Nat) (cs : List Char) : fitting n cs <+: cs := by
  induction cs generalizing n with
  | nil => exact List.nil_prefix
  | cons c cs ih =>
    rw [fitting]
    split_ifs
    · exact List.cons_prefix_cons.mpr ⟨rfl, ih _⟩
    · exact List.nil_prefix

theorem length_fitting_le (n : Nat) (cs : List Char) :
    ((fitting n cs).flatMap String.utf8EncodeChar).length ≤ n := by
  induction cs generalizing n with
  | nil => exact Nat.zero_le n
  | cons c cs ih =>
    rw [fitting]
    split_ifs with hfits
    · have hrest := ih (n - (String.utf8EncodeChar c).length)
      rw [List.flatMap_cons, List.length_append]
      omega
    · exact Nat.zero_le n

/-- Whatever begins the text and fits begins what is kept of it. -/
theorem isPrefix_fitting (hps : ps <+: cs) (hfits : (ps.flatMap String.utf8EncodeChar).length ≤ n) :
    ps <+: fitting n cs := by
  induction cs generalizing n ps with
  | nil => exact hps
  | cons c cs ih =>
    cases ps with
    | nil => exact List.nil_prefix
    | cons p ps =>
      obtain ⟨rfl, hrest⟩ := List.cons_prefix_cons.mp hps
      rw [List.flatMap_cons, List.length_append] at hfits
      rw [fitting, if_pos (by omega)]
      exact List.cons_prefix_cons.mpr ⟨rfl, ih hrest (by omega)⟩

theorem isLongestFit_fitting (s : String) (n : Nat) :
    IsLongestFit s n (String.ofList (fitting n s.toList)) where
  begins := by
    rw [String.toList_ofList]
    exact fitting_isPrefix n s.toList
  fits := by
    rw [utf8, String.toList_ofList]
    exact length_fitting_le n s.toList
  longest q hq hfits := by
    rw [String.toList_ofList]
    exact isPrefix_fitting hq hfits

/-! ## Reading what is kept -/

/-- What is read of the first bytes of a text that is longer: the characters that fit, and one
replacement character for what is there of the next one. -/
theorem decodeFrom_take_eq_fitting (h : n < (cs.flatMap String.utf8EncodeChar).length) :
    decodeFrom none ((cs.flatMap String.utf8EncodeChar).take n) = fitting n cs
      ++ if ((fitting n cs).flatMap String.utf8EncodeChar).length < n then [replacement] else [] := by
  induction cs generalizing n with
  | nil => exact absurd h (Nat.not_lt_zero n)
  | cons c cs ih =>
    rw [List.flatMap_cons, List.length_append] at h
    rw [List.flatMap_cons, fitting]
    by_cases hfits : (String.utf8EncodeChar c).length ≤ n
    · -- the first character is whole, and the cut is in the others
      obtain ⟨more, rfl⟩ := Nat.exists_eq_add_of_le hfits
      rw [if_pos hfits, List.take_length_add_append, decodeFrom_utf8EncodeChar, ih (by omega),
        Nat.add_sub_cancel_left, List.cons_append, List.flatMap_cons, List.length_append]
      simp only [Nat.add_lt_add_iff_left]
    · rw [if_neg hfits, List.take_append_of_le_length (by omega), List.nil_append]
      rcases Nat.eq_zero_or_pos n with rfl | hpos
      · rfl
      · rw [decodeFrom_take_utf8EncodeChar hpos (by omega)]
        exact (if_pos hpos).symm

/-- **Cutting.**  What is read of a text that is cut off: its longest beginning that fits, and the
replacement character if that leaves room. -/
theorem cut_eq (h : n < (utf8 s).length) : cut s n = String.ofList (fitting n s.toList)
    ++ if (utf8 (String.ofList (fitting n s.toList))).length < n then "\uFFFD" else "" := by
  have hreplacement : String.ofList [replacement] = "\uFFFD" := by decide
  rw [cut, ofUtf8, utf8, decodeFrom_take_eq_fitting h, String.ofList_append, utf8,
    String.toList_ofList, ← hreplacement]
  split_ifs <;> rfl

/-- What is read of a text that is cut off takes at most two bytes more than there was room for. -/
theorem length_utf8_cut_le (h : n < (utf8 s).length) : (utf8 (cut s n)).length ≤ n + 2 := by
  have hfits := (isLongestFit_fitting s n).fits
  have hthree : (utf8 "\uFFFD").length = 3 := by decide
  have happend : ∀ a b : String, (utf8 (a ++ b)).length = (utf8 a).length + (utf8 b).length := by
    intro a b
    rw [utf8, String.toList_append, List.flatMap_append, List.length_append, utf8, utf8]
  rw [cut_eq h, happend]
  split_ifs with hroom
  · omega
  · exact le_trans (Nat.add_le_add_right hfits 0) (Nat.le_add_right n 2)

end Text

/-! ## Texts with a cap -/

namespace Layout

variable {s : String} {cap : Nat} {b : Bytes}

/-- A text in a slot within its cap reads as far as the slot goes. -/
theorem decode_write_text (hs : Char.ofNat 0 ∉ s.toList) (u : Unsupplied) (hb : b.length ≤ cap) :
    decode (.text (some cap)) (write u (.text (some cap)) (.text s) b).bytes
      = .text (Text.cut s b.length) := by
  have hcontent : Value.bytes (.text s) = Text.utf8 s := rfl
  rw [write, hcontent, writeContent_eq (by rw [Option.getD_some]; exact hb), decode,
    contentText_fitted, Text.beforeNul_of_notMem hs]

theorem decode_toBytes_text (hs : Char.ofNat 0 ∉ s.toList) (cap : Nat) :
    decode (.text (some cap)) (toBytes (.text (some cap)) (.text s)) = .text (Text.cut s cap) := by
  rw [WellFormed.toBytes_of_fixedLength (.text (some cap)) rfl, encodeOver,
    seed_content rfl (by simp), amend, decode_write_text hs .kept (by rw [length_zeros]),
    length_zeros]

/-- A text is cut off at its cap by a slot that has just the bytes that it needs. -/
theorem cut_encodedLength (s : String) (cap : Nat) :
    Text.cut s (encodedLength (.text (some cap)) (.text s)) = Text.cut s cap := by
  have hlength : encodedLength (.text (some cap)) (.text s) = min (Text.utf8 s).length cap := by
    rw [encodedLength]
    rfl
  rw [hlength]
  rcases Nat.le_total (Text.utf8 s).length cap with hfits | hlong
  · rw [Nat.min_eq_left hfits, Text.cut_of_le (le_refl _), Text.cut_of_le hfits]
  · rw [Nat.min_eq_right hlong]

/-- **Texts.**  A text without the null character that fits its cap is read as it is.  Of a longer one
its longest beginning that fits is read, followed by one replacement character if that leaves room,
which makes up to two bytes more than the cap.  So it is in a slot that has just the bytes that the
text needs, and once what has been read is stored again. -/
theorem decode_cutText (hs : Char.ofNat 0 ∉ s.toList) (cap : Nat) :
    let layout : Layout := .text (some cap)
    let stored := decode layout (toBytes layout (.text s))
    ((Text.utf8 s).length ≤ cap → stored = .text s)
    ∧ (cap < (Text.utf8 s).length → ∃ p, Text.IsLongestFit s cap p
      ∧ stored = .text (p ++ if (Text.utf8 p).length < cap then "\uFFFD" else "")
      ∧ cap ≤ stored.bytes.length ∧ stored.bytes.length ≤ cap + 2)
    ∧ (∀ b : Bytes, b.length = encodedLength layout (.text s) →
      decode layout (encode layout (.text s) b).bytes = stored
        ∧ decode layout (encodeOver layout (.text s) b).bytes = stored)
    ∧ decode layout (toBytes layout stored) = stored := by
  intro layout stored
  have hstored : stored = .text (Text.cut s cap) := decode_toBytes_text hs cap
  have hbytes : stored.bytes = Text.utf8 (Text.cut s cap) := by
    rw [hstored]
    rfl
  refine ⟨fun hfits => ?_, fun hlong => ?_, fun b hb => ?_, ?_⟩
  · rw [hstored, Text.cut_of_le hfits]
  · refine ⟨_, Text.isLongestFit_fitting s cap, ?_, ?_, ?_⟩
    · rw [hstored, Text.cut_eq hlong]
    · rw [hbytes]
      exact Text.le_length_utf8_cut (le_of_lt hlong)
    · rw [hbytes]
      exact Text.length_utf8_cut_le hlong
  · have hread : ∀ (u : Unsupplied) (slot : Bytes), slot.length = b.length →
        decode layout (write u layout (.text s) slot).bytes = stored := by
      intro u slot hslot
      have hcap : slot.length ≤ cap := by
        rw [hslot, hb, encodedLength]
        exact Nat.min_le_right _ _
      rw [decode_write_text hs u hcap, hslot, hb, cut_encodedLength, hstored]
    exact ⟨hread .cleared b rfl,
      hread .kept (seed layout b) ((WellFormed.text (some cap)).keepsLength.2 b)⟩
  · rw [hstored, decode_toBytes_text (Text.nul_notMem_cut hs cap), Text.cut_cut]

/-- Of the three bytes of the euro sign there is room for one.  What is read takes five bytes where
the cap is three. -/
theorem decode_cutText_euro :
    let layout : Layout := .text (some 3)
    let stored := decode layout (toBytes layout (.text "ab€"))
    Char.ofNat 0 ∉ "ab€".toList ∧ stored = .text "ab\uFFFD" ∧ stored.bytes.length = 5
      ∧ decode layout (toBytes layout stored) = stored := by
  intro layout stored
  have hnul : Char.ofNat 0 ∉ "ab€".toList := by decide
  obtain ⟨-, hlong, -, hagain⟩ := decode_cutText hnul 3
  have hread : stored = .text "ab\uFFFD" := by
    rw [show stored = .text (Text.cut "ab€" 3) from decode_toBytes_text hnul 3]
    exact congrArg Value.text (by decide)
  exact ⟨hnul, hread, by rw [hread]; decide, hagain⟩

end Layout

end BinarySchema
