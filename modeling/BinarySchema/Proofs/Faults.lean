/-
# Operations that can fault

The operations on byte strings leave out what is not there, and a difference of numbers is never
below zero.  The operations of this module do neither: they stop with a `Fault` where a slice
reaches out of its byte string, where bytes are copied to a place of another size, where a number
would fall below zero, and where the divisor is zero.  Each comes with the condition under which it
gives what the other one gives.

Programs that are built from these operations stand beside those of the library, to show that none
of the faults ever occurs.
-/
import BinarySchema.Proofs.Placing
import BinarySchema.Proofs.Primitive

namespace BinarySchema

/-- What stops a program. -/
inductive Fault where
  /-- A slice ends behind the end of its byte string, or before it begins. -/
  | slice
  /-- Bytes are copied to a place that is not as long as they are. -/
  | copy
  /-- A number is taken from a smaller one. -/
  | subtraction
  /-- A number is divided by zero. -/
  | division
  deriving DecidableEq, Repr

/-- What a program gives that can stop with a fault. -/
abbrev Checked := Except Fault

namespace Checked

theorem ok_bind {α β : Type} (a : α) (f : α → Checked β) : (Except.ok a >>= f) = f a := rfl

/-! ## Numbers -/

/-- The difference of two numbers. -/
def subtract (m n : Nat) : Checked Nat := if n ≤ m then .ok (m - n) else .error .subtraction

/-- The quotient of two numbers. -/
def divide (m n : Nat) : Checked Nat := if n = 0 then .error .division else .ok (m / n)

/-- Counts down until the count fits. -/
def shrink (fits : Nat → Bool) : Nat → Checked Nat
  | 0 => if fits 0 then .ok 0 else .error .subtraction
  | count + 1 => if fits (count + 1) then .ok (count + 1) else shrink fits count

theorem subtract_ok {m n : Nat} (h : n ≤ m) : subtract m n = .ok (m - n) := if_pos h

theorem divide_ok {m n : Nat} (h : n ≠ 0) : divide m n = .ok (m / n) := if_neg h

/-- Counting down stops at the greatest count that fits. -/
theorem shrink_ok {fits : Nat → Bool} {n count : Nat} (hle : n ≤ count) (hn : fits n)
    (hmore : ∀ m, n < m → m ≤ count → ¬ fits m) : shrink fits count = .ok n := by
  induction count with
  | zero =>
    obtain rfl := Nat.le_zero.mp hle
    rw [shrink, if_pos hn]
  | succ count ih =>
    rw [shrink]
    rcases Nat.lt_or_eq_of_le hle with hlt | rfl
    · rw [if_neg (hmore _ hlt (le_refl _))]
      exact ih (Nat.le_of_lt_succ hlt) fun m hm hmle => hmore m hm (Nat.le_succ_of_le hmle)
    · rw [if_pos hn]

/-! ## Slices -/

/-- The first elements of a list. -/
def front {α : Type} (xs : List α) (n : Nat) : Checked (List α) :=
  if n ≤ xs.length then .ok (xs.take n) else .error .slice

/-- The bytes from `start` up to `stop`. -/
def slice (b : Bytes) (start stop : Nat) : Checked Bytes :=
  if start ≤ stop ∧ stop ≤ b.length then .ok (Span.slice ⟨start, stop - start⟩ b) else .error .slice

/-- Runs a program on the bytes from `start` up to `stop`, in place. -/
def onSlice (b : Bytes) (start stop : Nat) (f : Bytes → Checked Written) : Checked Written := do
  let w ← f (← slice b start stop)
  return ⟨Span.splice ⟨start, stop - start⟩ b w.bytes, w.length⟩

/-- Copies bytes over others. -/
def copy (new old : Bytes) : Checked Written :=
  if new.length = old.length then .ok ⟨new, new.length⟩ else .error .copy

/-- Fills bytes with zeros. -/
def fill (old : Bytes) : Checked Written := .ok ⟨zeros old.length, old.length⟩

variable {b new old : Bytes} {f : Bytes → Checked Written} {w : Written}

theorem front_ok {α : Type} {xs : List α} {n : Nat} (h : n ≤ xs.length) :
    front xs n = .ok (xs.take n) := if_pos h

theorem slice_ok {span : Span} (h : span.Fits b) :
    slice b span.start span.stop = .ok (span.slice b) := by
  have hstop : span.stop - span.start = span.length := by
    rw [Span.stop]
    omega
  rw [slice, if_pos ⟨Nat.le_add_right _ _, h⟩, hstop]

theorem slice_front {n : Nat} (h : n ≤ b.length) : slice b 0 n = .ok (b.take n) := by
  rw [slice, if_pos ⟨Nat.zero_le n, h⟩]
  rfl

example : slice [1, 2, 3] 1 4 = .error .slice := rfl

theorem slice_back {n : Nat} (h : n ≤ b.length) : slice b n b.length = .ok (b.drop n) := by
  rw [slice, if_pos ⟨h, le_refl _⟩, Span.slice, List.take_of_length_le]
  rw [List.length_drop]

theorem onSlice_ok {span : Span} (h : span.Fits b) (hf : f (span.slice b) = .ok w) :
    onSlice b span.start span.stop f = .ok ⟨span.splice b w.bytes, w.length⟩ := by
  have hstop : span.stop - span.start = span.length := by
    rw [Span.stop]
    omega
  rw [onSlice, slice_ok h, hstop]
  show (f (span.slice b) >>= _) = _
  rw [hf]
  rfl

/-- The middle of three parts is rewritten in place. -/
theorem onSlice_middle {a m c : Bytes} {start stop : Nat} (hstart : a.length = start)
    (hstop : start + m.length = stop) (hf : f m = .ok w) :
    onSlice (a ++ m ++ c) start stop f = .ok ⟨a ++ w.bytes ++ c, w.length⟩ := by
  have hfits : (⟨start, m.length⟩ : Span).Fits (a ++ m ++ c) := by
    simp only [Span.Fits, Span.stop, List.length_append]
    omega
  have hslice : (⟨start, m.length⟩ : Span).slice (a ++ m ++ c) = m :=
    Span.slice_middle hstart rfl
  have honSlice := onSlice_ok hfits (hslice.symm ▸ hf)
  rw [Span.splice_middle hstart rfl] at honSlice
  rw [← hstop]
  exact honSlice

/-- The front of a byte string is rewritten in place. -/
theorem onSlice_front {n : Nat} (h : n ≤ b.length) (hf : f (b.take n) = .ok w) :
    onSlice b 0 n f = .ok ⟨w.bytes ++ b.drop n, w.length⟩ := by
  have hstop : 0 + (b.take n).length = n := by
    rw [List.length_take, Nat.min_eq_left h, Nat.zero_add]
  have hmiddle := onSlice_middle (a := []) (c := b.drop n) rfl hstop hf
  rw [List.nil_append, List.nil_append, List.take_append_drop] at hmiddle
  exact hmiddle

theorem copy_ok (h : new.length = old.length) : copy new old = .ok ⟨new, new.length⟩ := if_pos h

/-! ## Loops -/

theorem mapM_ok {α β : Type} {g : α → Checked β} {h : α → β} {xs : List α}
    (hg : ∀ x ∈ xs, g x = .ok (h x)) : xs.mapM g = .ok (xs.map h) := by
  induction xs with
  | nil => rfl
  | cons x rest ih =>
    rw [List.mapM_cons, hg x List.mem_cons_self, ih fun y hy => hg y (List.mem_cons_of_mem _ hy)]
    rfl

/-! ## Words -/

/-- The word at `offset`, if the byte string does not end before it does. -/
def readWord? (b : Bytes) (offset : Nat) : Checked (Option UInt32) :=
  match Span.slice? ⟨offset, Word.width⟩ b with
  | none => .ok none
  | some bytes => do
    let word ← copy bytes (zeros Word.width)
    return some (UInt32.ofNat (LittleEndian.decode word.bytes))

/-- The offset that is stored at another one. -/
def readOffset? (b : Bytes) (offset : Nat) : Checked (Option Nat) := do
  return (← readWord? b offset).map UInt32.toNat

/-- The length stored at `offset`. -/
def readLength (b : Bytes) (offset : Nat) : Checked Nat := do
  return (← readOffset? b offset).getD 0

/-- Stores a length at `offset`, if its word fits there. -/
def storeWord (n : Nat) (b : Bytes) (offset : Nat) : Checked Bytes :=
  let span : Span := ⟨offset, Word.width⟩
  if span.Fits b then do
    let w ← onSlice b span.start span.stop (copy (Word.toBytes (Word.ofLength n)))
    return w.bytes
  else .ok b

theorem readWord?_ok (b : Bytes) (offset : Nat) :
    readWord? b offset = .ok (Word.read? b offset) := by
  rw [readWord?, Word.read?]
  cases hslice : Span.slice? ⟨offset, Word.width⟩ b with
  | none => rfl
  | some bytes =>
    have hlength : bytes.length = (zeros Word.width).length := by
      unfold Span.slice? at hslice
      split_ifs at hslice with hfits
      cases hslice
      rw [Span.length_slice_of_fits hfits, length_zeros]
    dsimp only
    rw [copy_ok hlength]
    rfl

theorem readOffset?_ok (b : Bytes) (offset : Nat) :
    readOffset? b offset = .ok (Layout.storedOffset? b offset) := by
  rw [readOffset?, readWord?_ok]
  rfl

theorem readLength_ok (b : Bytes) (offset : Nat) :
    readLength b offset = .ok (Word.lengthAt b offset) := by
  rw [readLength, readOffset?_ok]
  rfl

theorem storeWord_ok (n : Nat) (b : Bytes) (offset : Nat) :
    storeWord n b offset = .ok (Word.store n b offset) := by
  rw [storeWord, Word.store, Word.write?]
  dsimp only
  split_ifs with hfits
  · have hlength : (Word.toBytes (Word.ofLength n)).length
        = (Span.slice ⟨offset, Word.width⟩ b).length := by
      rw [Word.length_toBytes, Span.length_slice_of_fits hfits]
    rw [onSlice_ok hfits (copy_ok hlength)]
    rfl
  · rfl

/-! ## Numbers in byte strings -/

/-- The value at the front of a byte string, by way of a buffer of eight bytes. -/
def readNumber (p : Primitive) (b : Bytes) : Checked Value := do
  let width := min p.width b.length
  let source ← slice b 0 width
  let buffer ← onSlice (zeros 8) 0 width (copy source)
  return p.meaning (LittleEndian.decode (buffer.bytes.take p.width))

/-- Writes a number to the front of a byte string. -/
def writeNumber (p : Primitive) (v : Value) (b : Bytes) : Checked Written :=
  onSlice b 0 p.width (copy (p.write v))

theorem decode_zeros (n : Nat) : LittleEndian.decode (zeros n) = 0 := by
  induction n with
  | zero => rfl
  | succ n ih => exact congrArg (0 + 256 * ·) ih

/-- Zeros at the end of a number add nothing to it. -/
theorem decode_append_zeros (b : Bytes) (n : Nat) :
    LittleEndian.decode (b ++ zeros n) = LittleEndian.decode b := by
  induction b with
  | nil => exact decode_zeros n
  | cons byte rest ih => rw [List.cons_append, LittleEndian.decode, LittleEndian.decode, ih]

theorem width_le (p : Primitive) : p.width ≤ 8 := by
  cases p <;> decide

theorem readNumber_ok (p : Primitive) (b : Bytes) : readNumber p b = .ok (p.read b) := by
  have hwidth := width_le p
  have hsource : (b.take (min p.width b.length)).length = min p.width b.length := by
    rw [List.length_take]
    omega
  have hbuffer : ((zeros 8).take (min p.width b.length)).length = min p.width b.length := by
    rw [List.length_take, length_zeros]
    omega
  have htake : b.take (min p.width b.length) = b.take p.width := List.take_eq_take_min.symm
  rw [readNumber]
  rw [slice_front (Nat.min_le_right _ _)]
  show (onSlice _ _ _ _ >>= _) = _
  rw [onSlice_front (by rw [length_zeros]; omega) (copy_ok (hsource.trans hbuffer.symm))]
  show Except.ok (p.meaning _) = _
  -- behind the bytes that are there, the buffer has zeros
  have hrest : (zeros 8).drop (min p.width b.length) = zeros (8 - min p.width b.length) :=
    List.drop_replicate
  rw [hrest, htake, Primitive.read, List.take_append, List.take_take, Nat.min_self, zeros,
    List.take_replicate, ← zeros, decode_append_zeros]

/-- A number takes the first bytes, and those behind it stay. -/
theorem writeNumber_front (p : Primitive) (v : Value) (h : p.width ≤ b.length) :
    writeNumber p v b = .ok ⟨p.write v ++ b.drop p.width, p.width⟩ := by
  have hlength : (p.write v).length = (b.take p.width).length := by
    rw [Primitive.length_write, List.length_take, Nat.min_eq_left h]
  rw [writeNumber, onSlice_front h (copy_ok hlength), Primitive.length_write]

theorem writeNumber_ok (p : Primitive) (v : Value) (h : b.length = p.width) :
    writeNumber p v b = .ok ⟨p.write v, p.width⟩ := by
  rw [writeNumber_front p v (le_of_eq h.symm), ← h, List.drop_length, List.append_nil]

end Checked

end BinarySchema
