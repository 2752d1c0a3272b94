/-
# Reading and rewriting byte strings

How the parts of a byte string behave when another part is rewritten.  The main facts:

* `Span.slice_splice` : a span that has been rewritten reads as the new bytes;
* `Span.slice_splice_of_disjoint` : every span apart from it reads as before;
* `slice_onSlots` : each slot of a run of slots is rewritten by its own function;
* `LittleEndian.decode_encode` : a number that fits its width is read back.
-/
import Mathlib
import BinarySchema.Bytes

namespace BinarySchema

/-! ## Zeros -/

@[simp] theorem length_zeros (n : Nat) : (zeros n).length = n := by
  rw [zeros, List.length_replicate]

/-- A string of zeros is cut into two strings of zeros. -/
theorem zeros_add (m n : Nat) : zeros (m + n) = zeros m ++ zeros n := by
  rw [zeros, zeros, zeros, List.replicate_append_replicate]

/-! ## Spans -/

namespace Span

variable {s t : Span} {a b c new : Bytes}

theorem length_slice (s : Span) (b : Bytes) :
    (s.slice b).length = min s.length (b.length - s.start) := by
  rw [slice, List.length_take, List.length_drop]

theorem length_slice_of_fits (h : s.Fits b) : (s.slice b).length = s.length := by
  rw [length_slice]
  simp only [Fits, stop] at h
  omega

theorem slice?_of_fits (h : s.Fits b) : s.slice? b = some (s.slice b) := by
  rw [slice?, if_pos h]

/-- Byte strings of one length that agree under a span. -/
theorem slice?_congr (hlength : c.length = b.length) (h : s.slice c = s.slice b) :
    s.slice? c = s.slice? b := by
  by_cases hfits : s.Fits b
  · have hfits' : s.Fits c := by rwa [Fits, hlength]
    rw [slice?_of_fits hfits, slice?_of_fits hfits', h]
  · have hfits' : ¬ s.Fits c := by rwa [Fits, hlength]
    rw [slice?, slice?, if_neg hfits, if_neg hfits']

/-- A span that fits cuts the byte string into three parts. -/
theorem exists_split (h : s.Fits b) :
    ∃ a m c, b = a ++ m ++ c ∧ a.length = s.start ∧ m.length = s.length := by
  simp only [Fits, stop] at h
  refine ⟨b.take s.start, (b.drop s.start).take s.length, b.drop s.stop, ?_, ?_, ?_⟩
  · rw [List.append_assoc, stop, ← List.drop_drop, List.take_append_drop, List.take_append_drop]
  · rw [List.length_take]
    omega
  · rw [List.length_take, List.length_drop]
    omega

/-- The middle of three parts is the bytes under its span. -/
theorem slice_middle (ha : a.length = s.start) {m : Bytes} (hm : m.length = s.length) :
    s.slice (a ++ m ++ c) = m := by
  rw [slice, ← ha, ← hm, List.append_assoc, List.drop_left, List.take_left]

/-- Rewriting the middle of three parts leaves the outer two. -/
theorem splice_middle (ha : a.length = s.start) {m : Bytes} (hm : m.length = s.length) :
    s.splice (a ++ m ++ c) new = a ++ new ++ c := by
  have htake : (a ++ m ++ c).take s.start = a := by
    rw [← ha, List.append_assoc, List.take_left]
  have hdrop : (a ++ m ++ c).drop s.stop = c := by
    rw [stop, ← ha, ← hm, ← List.length_append, List.drop_left]
  rw [splice, htake, hdrop]

theorem length_splice (h : new.length = (s.slice b).length) :
    (s.splice b new).length = b.length := by
  rw [length_slice] at h
  simp only [splice, stop, List.length_append, List.length_take, List.length_drop]
  omega

theorem length_splice_of_fits (hs : s.Fits b) (h : new.length = s.length) :
    (s.splice b new).length = b.length :=
  length_splice (by rw [length_slice_of_fits hs, h])

theorem length_modify {f : Bytes → Bytes} (hf : ∀ x, (f x).length = x.length) :
    (s.modify f b).length = b.length :=
  length_splice (hf _)

/-- A span inside a span. -/
theorem slice_slice {outer inner : Span} (h : inner.stop ≤ outer.length) (b : Bytes) :
    inner.slice (outer.slice b) = slice ⟨outer.start + inner.start, inner.length⟩ b := by
  have hmin : min inner.length (outer.length - inner.start) = inner.length := by
    unfold stop at h
    omega
  rw [slice, slice, slice, List.drop_take, List.take_take, List.drop_drop, hmin]

/-- What lies under a span does not depend on what is appended. -/
theorem slice_append (h : s.Fits b) (c : Bytes) : s.slice (b ++ c) = s.slice b := by
  simp only [Fits, stop] at h
  rw [slice, slice, List.drop_append_of_le_length (by omega), List.take_append_of_le_length]
  rw [List.length_drop]
  omega

/-- Rewriting a span does not touch what is appended. -/
theorem splice_append (h : s.Fits b) (c : Bytes) :
    s.splice (b ++ c) new = s.splice b new ++ c := by
  simp only [Fits] at h
  have hstart : s.start ≤ b.length := by
    unfold stop at h
    omega
  rw [splice, splice, List.take_append_of_le_length hstart, List.drop_append_of_le_length h]
  simp only [List.append_assoc]

/-- A span that has been rewritten reads as the new bytes. -/
theorem slice_splice (hs : s.Fits b) (hn : new.length = s.length) :
    s.slice (s.splice b new) = new := by
  obtain ⟨a, m, c, rfl, ha, hm⟩ := exists_split hs
  rw [splice_middle ha hm, slice_middle ha hn]

/-- What stands in front of a span stays when the span is rewritten. -/
theorem take_splice (hs : s.Fits b) : (s.splice b new).take s.start = b.take s.start := by
  obtain ⟨a, m, c, rfl, ha, hm⟩ := exists_split hs
  rw [splice_middle ha hm, ← ha]
  simp only [List.append_assoc, List.take_left]

/-- What stands behind a span stays when the span is rewritten. -/
theorem drop_splice (hs : s.Fits b) (hn : new.length = s.length) :
    (s.splice b new).drop s.stop = b.drop s.stop := by
  obtain ⟨a, m, c, rfl, ha, hm⟩ := exists_split hs
  rw [splice_middle ha hm, stop, ← ha, List.drop_left' (by rw [List.length_append, hn]),
    List.drop_left' (by rw [List.length_append, hm])]

/-- The bytes in front of a span, those under it, and those behind it. -/
theorem take_slice_drop (s : Span) (b : Bytes) :
    b.take s.start ++ s.slice b ++ b.drop s.stop = b := by
  rw [slice, stop, ← List.drop_drop, List.append_assoc, List.take_append_drop,
    List.take_append_drop]

/-- A span apart from the one that is rewritten reads as before. -/
theorem slice_splice_of_disjoint (hs : s.Fits b) (hn : new.length = s.length)
    (h : t.stop ≤ s.start ∨ s.stop ≤ t.start) : t.slice (s.splice b new) = t.slice b := by
  obtain ⟨a, m, c, rfl, ha, hm⟩ := exists_split hs
  rw [splice_middle ha hm]
  simp only [stop] at h
  simp only [slice, List.append_assoc]
  rcases h with h | h
  · rw [List.drop_append_of_le_length (by omega), List.drop_append_of_le_length (by omega),
      List.take_append_of_le_length (by rw [List.length_drop]; omega),
      List.take_append_of_le_length (by rw [List.length_drop]; omega)]
  · have hdrop : ∀ x : Bytes, x.length = s.length →
        (a ++ (x ++ c)).drop t.start = c.drop (t.start - (a.length + x.length)) := by
      intro x hx
      rw [← List.append_assoc, List.drop_append, List.drop_of_length_le, List.nil_append,
        List.length_append]
      rw [List.length_append]
      omega
    rw [hdrop new hn, hdrop m hm, hn, hm]

/-- The span from one stored offset to the next, if it holds at least one byte. -/
theorem between?_add (start n : Nat) :
    between? start (start + n) = if n = 0 then none else some ⟨start, n⟩ := by
  unfold between?
  by_cases h : n = 0
  · rw [if_pos h, if_neg (by omega)]
  · rw [if_neg h, if_pos (by omega), Nat.add_sub_cancel_left]

end Span

/-! ## Rewriting from the front -/

@[simp] theorem length_overlay (new b : Bytes) : (overlay new b).length = b.length := by
  simp only [overlay, List.length_append, List.length_take, List.length_drop]
  omega

theorem overlay_of_le {new b : Bytes} (h : new.length ≤ b.length) :
    overlay new b = new ++ b.drop new.length := by
  rw [overlay, List.take_of_length_le h]

theorem length_onFront {f : Bytes → Bytes} (hf : ∀ x, (f x).length = x.length) (n : Nat)
    (b : Bytes) : (onFront n f b).length = b.length := by
  rw [onFront, List.length_append, hf, List.length_take, List.length_drop]
  omega

/-! ## Runs of slots -/

theorem length_onSlots {stride : Nat} {fs : List (Bytes → Bytes)}
    (hf : ∀ f ∈ fs, ∀ x, (f x).length = x.length) (b : Bytes) :
    (onSlots stride fs b).length = b.length := by
  induction fs generalizing b with
  | nil => rfl
  | cons f fs ih =>
    rw [onSlots, List.length_append, hf f List.mem_cons_self,
      ih (fun g hg => hf g (List.mem_cons_of_mem _ hg)), List.length_take, List.length_drop]
    omega

/-- The same, when only slots of full size are known to keep their size. -/
theorem length_onSlots_of_le {stride : Nat} {fs : List (Bytes → Bytes)}
    (hf : ∀ f ∈ fs, ∀ x, x.length = stride → (f x).length = stride) {b : Bytes}
    (hb : fs.length * stride ≤ b.length) : (onSlots stride fs b).length = b.length := by
  induction fs generalizing b with
  | nil => rfl
  | cons f fs ih =>
    rw [List.length_cons, Nat.succ_mul] at hb
    have htake : (b.take stride).length = stride := by
      rw [List.length_take]
      omega
    rw [onSlots, List.length_append, hf f List.mem_cons_self _ htake,
      ih (fun g hg => hf g (List.mem_cons_of_mem _ hg)), List.length_drop]
    · omega
    · rw [List.length_drop]
      omega

/-- Each slot of a run is rewritten by its own function. -/
theorem slice_onSlots {stride : Nat} {fs : List (Bytes → Bytes)}
    (hf : ∀ f ∈ fs, ∀ x, x.length = stride → (f x).length = stride) {b : Bytes}
    (hb : fs.length * stride ≤ b.length) {i : Nat} (hi : i < fs.length) :
    Span.slice ⟨i * stride, stride⟩ (onSlots stride fs b)
      = fs[i] (Span.slice ⟨i * stride, stride⟩ b) := by
  induction fs generalizing b i with
  | nil => exact absurd hi (Nat.not_lt_zero i)
  | cons f fs ih =>
    rw [List.length_cons, Nat.succ_mul] at hb
    have htake : (b.take stride).length = stride := by
      rw [List.length_take]
      omega
    have hlen := hf f List.mem_cons_self _ htake
    cases i with
    | zero =>
      rw [onSlots, List.getElem_cons_zero]
      simp only [Span.slice, Nat.zero_mul, List.drop_zero]
      rw [List.take_left' hlen]
    | succ i =>
      have htail := ih (fun g hg => hf g (List.mem_cons_of_mem _ hg)) (b := b.drop stride)
        (by rw [List.length_drop]; omega) (i := i)
        (by rw [List.length_cons] at hi; omega)
      rw [onSlots, List.getElem_cons_succ]
      simp only [Span.slice] at htail ⊢
      rw [Nat.succ_mul, Nat.add_comm, ← List.drop_drop, List.drop_left' hlen, htail,
        List.drop_drop]

/-- Behind the slots that are rewritten, those of the run are as before. -/
theorem slice_onSlots_of_le {stride : Nat} {fs : List (Bytes → Bytes)}
    (hf : ∀ f ∈ fs, ∀ x, x.length = stride → (f x).length = stride) {b : Bytes}
    (hb : fs.length * stride ≤ b.length) {i : Nat} (hi : fs.length ≤ i) :
    Span.slice ⟨i * stride, stride⟩ (onSlots stride fs b) = Span.slice ⟨i * stride, stride⟩ b := by
  induction fs generalizing b i with
  | nil => rfl
  | cons f fs ih =>
    rw [List.length_cons, Nat.succ_mul] at hb
    have htake : (b.take stride).length = stride := by
      rw [List.length_take]
      omega
    have hlen := hf f List.mem_cons_self _ htake
    obtain ⟨i, rfl⟩ := Nat.exists_eq_succ_of_ne_zero (n := i) (by
      rw [List.length_cons] at hi
      omega)
    have htail := ih (fun g hg => hf g (List.mem_cons_of_mem _ hg)) (b := b.drop stride)
      (by rw [List.length_drop]; omega) (i := i) (by rw [List.length_cons] at hi; omega)
    rw [onSlots]
    simp only [Span.slice] at htail ⊢
    rw [Nat.succ_mul, Nat.add_comm, ← List.drop_drop, List.drop_left' hlen, htail, List.drop_drop]

/-! ## Little-endian numbers -/

namespace LittleEndian

@[simp] theorem length_encode (width n : Nat) : (encode width n).length = width := by
  induction width generalizing n with
  | zero => rfl
  | succ width ih => rw [encode, List.length_cons, ih]

/-- The bytes of a number stand for the number, as far as they reach. -/
theorem decode_encode_mod (width n : Nat) : decode (encode width n) = n % 256 ^ width := by
  induction width generalizing n with
  | zero => rw [encode, decode, Nat.pow_zero, Nat.mod_one]
  | succ width ih =>
    have hbyte : (UInt8.ofNat n).toNat = n % 256 := UInt8.toNat_ofNat'
    rw [encode, decode, ih, hbyte, Nat.pow_succ', Nat.mod_mul]

/-- A number that fits its width is read back. -/
theorem decode_encode {width n : Nat} (h : n < 256 ^ width) : decode (encode width n) = n := by
  rw [decode_encode_mod, Nat.mod_eq_of_lt h]

/-- The bytes of a number do not depend on what lies beyond them. -/
theorem encode_mod (width n : Nat) : encode width (n % 256 ^ width) = encode width n := by
  induction width generalizing n with
  | zero => rfl
  | succ width ih =>
    have hbyte : UInt8.ofNat (n % (256 * 256 ^ width)) = UInt8.ofNat n := by
      apply UInt8.toNat_inj.mp
      rw [UInt8.toNat_ofNat', UInt8.toNat_ofNat', Nat.mod_mul_right_mod]
    rw [encode, encode, Nat.pow_succ', hbyte, Nat.mod_mul_right_div_self, ih]

/-- Two numbers have the same bytes exactly when they are congruent. -/
theorem encode_eq_encode_iff {width m n : Nat} :
    encode width m = encode width n ↔ m ≡ n [MOD 256 ^ width] := by
  constructor
  · intro h
    have hdecode := congrArg decode h
    rwa [decode_encode_mod, decode_encode_mod] at hdecode
  · intro h
    rw [← encode_mod width m, h, encode_mod]

/-- Bytes are those of the number that they stand for. -/
theorem encode_decode (b : Bytes) : encode b.length (decode b) = b := by
  induction b with
  | nil => rfl
  | cons x b ih =>
    have hx : x.toNat < 256 := x.toNat_lt
    have hlow : UInt8.ofNat (x.toNat + 256 * decode b) = x := by
      apply UInt8.toNat_inj.mp
      rw [UInt8.toNat_ofNat', Nat.add_mul_mod_self_left, Nat.mod_eq_of_lt hx]
    have hhigh : (x.toNat + 256 * decode b) / 256 = decode b := by omega
    rw [List.length_cons, decode, encode, hlow, hhigh, ih]

/-- A number is below the bound of its bytes. -/
theorem decode_lt (b : Bytes) : decode b < 256 ^ b.length := by
  induction b with
  | nil => exact Nat.one_pos
  | cons x b ih =>
    have hx : x.toNat < 256 := x.toNat_lt
    rw [decode, List.length_cons, Nat.pow_succ']
    omega

end LittleEndian

end BinarySchema
