/-
# Header words and tables of end offsets

Storing a header word and reading it back, and tables of such words.  A table names runs of bytes
that lie behind one another: `ends` gives the offset at which each run ends, `words` the bytes of a
table, and `slice_run` finds a run between two neighbouring offsets.
-/
import BinarySchema.Proofs.Bytes
import BinarySchema.Layout.Span

namespace BinarySchema

namespace Word

@[simp] theorem length_toBytes (w : UInt32) : (toBytes w).length = width := by
  rw [toBytes, LittleEndian.length_encode]

/-- The bytes of a word stand for the word. -/
theorem ofNat_decode_toBytes (w : UInt32) :
    UInt32.ofNat (LittleEndian.decode (toBytes w)) = w := by
  rw [toBytes, LittleEndian.decode_encode (lt_of_lt_of_le w.toNat_lt (by decide)),
    UInt32.ofNat_toNat]

theorem toNat_ofLength_eq (n : Nat) : (ofLength n).toNat = min n 0xffffffff := by
  rw [ofLength, UInt32.toNat_ofNat_of_lt' (by rw [UInt32.size]; omega)]

/-- A length below `2 ^ 32` is stored as it is. -/
theorem toNat_ofLength {n : Nat} (h : n < 2 ^ 32) : (ofLength n).toNat = n := by
  rw [toNat_ofLength_eq]
  omega

/-- No length is stored as a greater one. -/
theorem toNat_ofLength_le (n : Nat) : (ofLength n).toNat ≤ n := by
  rw [toNat_ofLength_eq]
  exact Nat.min_le_left _ _

/-- A word that lies in the middle of a byte string is read. -/
theorem read?_middle {a c : Bytes} {offset : Nat} (ha : a.length = offset) (w : UInt32) :
    read? (a ++ toBytes w ++ c) offset = some w := by
  have hfits : Span.Fits ⟨offset, width⟩ (a ++ toBytes w ++ c) := by
    simp only [Span.Fits, Span.stop, List.length_append, length_toBytes]
    omega
  rw [read?, Span.slice?, if_pos hfits, Span.slice_middle ha (length_toBytes w), Option.map_some,
    ofNat_decode_toBytes]

theorem store_of_fits {n offset : Nat} {b : Bytes} (h : offset + width ≤ b.length) :
    store n b offset = Span.splice ⟨offset, width⟩ b (toBytes (ofLength n)) := by
  rw [store, write?, if_pos (show Span.Fits ⟨offset, width⟩ b from h), Option.getD_some]

/-- A word that is stored over another one in the middle of a byte string. -/
theorem store_middle {a m c : Bytes} {n offset : Nat} (ha : a.length = offset)
    (hm : m.length = width) : store n (a ++ m ++ c) offset = a ++ toBytes (ofLength n) ++ c := by
  rw [store_of_fits, Span.splice_middle ha hm]
  simp only [List.length_append]
  omega

end Word

/-! ## Tables -/

namespace Layout

/-- The bytes of a table of lengths. -/
def words (lengths : List Nat) : Bytes :=
  lengths.flatMap fun n => Word.toBytes (Word.ofLength n)

theorem words_cons (n : Nat) (lengths : List Nat) :
    words (n :: lengths) = Word.toBytes (Word.ofLength n) ++ words lengths := by
  rw [words, words, List.flatMap_cons]

theorem words_append (as bs : List Nat) : words (as ++ bs) = words as ++ words bs := by
  rw [words, words, words, List.flatMap_append]

@[simp] theorem length_words (lengths : List Nat) :
    (words lengths).length = lengths.length * Word.width := by
  induction lengths with
  | nil => rw [words, List.flatMap_nil, List.length_nil, List.length_nil, Nat.zero_mul]
  | cons n lengths ih =>
    rw [words_cons, List.length_append, ih, Word.length_toBytes, List.length_cons, Nat.succ_mul,
      Nat.add_comm]

/-- A table cut at one of its entries. -/
theorem words_split {lengths : List Nat} {i : Nat} (hi : i < lengths.length) :
    words lengths = words (lengths.take i) ++ Word.toBytes (Word.ofLength lengths[i])
      ++ words (lengths.drop (i + 1)) := by
  rw [List.append_assoc, ← words_cons, ← words_append, ← List.drop_eq_getElem_cons hi,
    List.take_append_drop]

/-- Each entry of a table is the word that is stored there. -/
theorem storedOffset?_words_ofLength {a c : Bytes} {lengths : List Nat} {offset i : Nat}
    (hoffset : a.length + i * Word.width = offset) (hi : i < lengths.length) :
    storedOffset? (a ++ words lengths ++ c) offset = some (Word.ofLength lengths[i]).toNat := by
  have hsplit : a ++ words lengths ++ c = (a ++ words (lengths.take i))
      ++ Word.toBytes (Word.ofLength lengths[i]) ++ (words (lengths.drop (i + 1)) ++ c) := by
    rw [words_split hi]
    simp only [List.append_assoc]
  have hlen : (a ++ words (lengths.take i)).length = offset := by
    rw [List.length_append, length_words, List.length_take, Nat.min_eq_left (Nat.le_of_lt hi),
      hoffset]
  rw [storedOffset?, hsplit, Word.read?_middle hlen, Option.map_some]

/-- Each entry of a table is the length that is stored there, if that fits a word. -/
theorem storedOffset?_words {a c : Bytes} {lengths : List Nat} {offset i : Nat}
    (hoffset : a.length + i * Word.width = offset) (hi : i < lengths.length)
    (hsmall : lengths[i] < 2 ^ 32) :
    storedOffset? (a ++ words lengths ++ c) offset = some lengths[i] := by
  rw [storedOffset?_words_ofLength hoffset hi, Word.toNat_ofLength hsmall]

/-- A stored length is what the offset at its place says. -/
theorem lengthAt_of_storedOffset? {b : Bytes} {offset n : Nat}
    (h : storedOffset? b offset = some n) : Word.lengthAt b offset = n := by
  unfold storedOffset? at h
  rw [Word.lengthAt, h, Option.getD_some]

/-! ## Runs behind one another -/

/-- Where each of several runs ends, the first of which begins at `start`. -/
def ends (start : Nat) : List Bytes → List Nat
  | [] => []
  | run :: rest => (start + run.length) :: ends (start + run.length) rest

/-- Where the run with the given number begins. -/
def runStart (start : Nat) (runs : List Bytes) (i : Nat) : Nat :=
  start + (runs.take i).flatten.length

@[simp] theorem length_ends (start : Nat) (runs : List Bytes) :
    (ends start runs).length = runs.length := by
  induction runs generalizing start with
  | nil => rfl
  | cons run rest ih => rw [ends, List.length_cons, ih, List.length_cons]

@[simp] theorem runStart_zero (start : Nat) (runs : List Bytes) : runStart start runs 0 = start := by
  rw [runStart, List.take_zero, List.flatten_nil, List.length_nil, Nat.add_zero]

theorem runStart_cons_succ (start : Nat) (run : Bytes) (rest : List Bytes) (i : Nat) :
    runStart start (run :: rest) (i + 1) = runStart (start + run.length) rest i := by
  rw [runStart, runStart, List.take_succ_cons, List.flatten_cons, List.length_append, Nat.add_assoc]

/-- Each run ends where the next one begins. -/
theorem runStart_succ (start : Nat) {runs : List Bytes} {i : Nat} (hi : i < runs.length) :
    runStart start runs (i + 1) = runStart start runs i + runs[i].length := by
  rw [runStart, runStart, List.take_succ_eq_append_getElem hi, List.flatten_append,
    List.length_append, List.flatten_singleton, Nat.add_assoc]

/-- Behind the last run nothing begins any more. -/
theorem runStart_length (start : Nat) (runs : List Bytes) :
    runStart start runs runs.length = start + runs.flatten.length := by
  rw [runStart, List.take_length]

/-- Runs begin one behind the other. -/
theorem runStart_mono (start : Nat) (runs : List Bytes) {i j : Nat} (h : i ≤ j) :
    runStart start runs i ≤ runStart start runs j := by
  have hsplit := List.take_append_drop i (runs.take j)
  rw [List.take_take, Nat.min_eq_left h] at hsplit
  rw [runStart, runStart, ← hsplit, List.flatten_append, List.length_append]
  omega

/-- No run begins behind the end of the last one. -/
theorem runStart_le (start : Nat) (runs : List Bytes) (i : Nat) :
    runStart start runs i ≤ start + runs.flatten.length := by
  have hsplit := List.take_append_drop i runs
  unfold runStart
  conv_rhs => rw [← hsplit, List.flatten_append, List.length_append]
  omega

theorem getElem_ends (start : Nat) {runs : List Bytes} {i : Nat} (hi : i < (ends start runs).length) :
    (ends start runs)[i] = runStart start runs (i + 1) := by
  induction runs generalizing start i with
  | nil => exact absurd hi (Nat.not_lt_zero i)
  | cons run rest ih =>
    cases i with
    | zero => simp only [ends, List.getElem_cons_zero, runStart_cons_succ, runStart_zero]
    | succ i =>
      simp only [ends, List.getElem_cons_succ]
      rw [ih, ← runStart_cons_succ]

/-- The start of the first run and the ends of all runs are where the runs begin. -/
theorem getElem_start_cons_ends (start : Nat) {runs : List Bytes} {i : Nat}
    (hi : i < (start :: ends start runs).length) :
    (start :: ends start runs)[i] = runStart start runs i := by
  cases i with
  | zero => rw [List.getElem_cons_zero, runStart_zero]
  | succ i => rw [List.getElem_cons_succ, getElem_ends]

theorem getLastD_ends (start : Nat) (runs : List Bytes) :
    (ends start runs).getLastD start = start + runs.flatten.length := by
  induction runs generalizing start with
  | nil => rfl
  | cons run rest ih =>
    rw [ends, List.getLastD_cons, ih, List.flatten_cons, List.length_append, Nat.add_assoc]

/-- The bytes between two neighbouring offsets are the run between them. -/
theorem slice_run {a : Bytes} {runs : List Bytes} {c : Bytes} {i : Nat} (hi : i < runs.length) :
    Span.slice ⟨runStart a.length runs i, runs[i].length⟩ (a ++ runs.flatten ++ c) = runs[i] := by
  have hsplit : a ++ runs.flatten ++ c
      = (a ++ (runs.take i).flatten) ++ runs[i] ++ ((runs.drop (i + 1)).flatten ++ c) := by
    conv_lhs => rw [← List.take_append_drop i runs, List.drop_eq_getElem_cons hi]
    simp only [List.flatten_append, List.flatten_cons, List.append_assoc]
  rw [hsplit, Span.slice_middle (by rw [List.length_append, runStart]) rfl]

/-- Rewriting the bytes of one run by as many others. -/
theorem splice_run {a : Bytes} {runs : List Bytes} {c : Bytes} {i : Nat} (hi : i < runs.length)
    (new : Bytes) :
    Span.splice ⟨runStart a.length runs i, runs[i].length⟩ (a ++ runs.flatten ++ c) new
      = a ++ (runs.set i new).flatten ++ c := by
  have hsplit : a ++ runs.flatten ++ c
      = (a ++ (runs.take i).flatten) ++ runs[i] ++ ((runs.drop (i + 1)).flatten ++ c) := by
    conv_lhs => rw [← List.take_append_drop i runs, List.drop_eq_getElem_cons hi]
    simp only [List.flatten_append, List.flatten_cons, List.append_assoc]
  rw [hsplit, Span.splice_middle (by rw [List.length_append, runStart]) rfl,
    List.set_eq_take_append_cons_drop, if_pos hi]
  simp only [List.flatten_append, List.flatten_cons, List.append_assoc]

/-- The offsets of runs depend on their lengths only. -/
theorem ends_congr (start : Nat) {runs runs' : List Bytes}
    (h : runs.map List.length = runs'.map List.length) : ends start runs = ends start runs' := by
  induction runs generalizing start runs' with
  | nil =>
    rw [List.map_nil] at h
    rw [List.map_eq_nil_iff.mp h.symm]
  | cons run rest ih =>
    cases runs' with
    | nil => exact absurd h (by simp)
    | cons run' rest' =>
      rw [List.map_cons, List.map_cons, List.cons.injEq] at h
      rw [ends, ends, h.1, ih _ h.2]

theorem length_congr {runs runs' : List Bytes} (h : runs.map List.length = runs'.map List.length) :
    runs.length = runs'.length := by
  have hlength := congrArg List.length h
  rwa [List.length_map, List.length_map] at hlength

theorem length_flatten_congr {runs runs' : List Bytes}
    (h : runs.map List.length = runs'.map List.length) :
    runs.flatten.length = runs'.flatten.length := by
  rw [List.length_flatten, List.length_flatten, h]

theorem length_getElem_congr {runs runs' : List Bytes}
    (h : runs.map List.length = runs'.map List.length) {i : Nat} (hi : i < runs.length)
    (hi' : i < runs'.length) : runs[i].length = runs'[i].length := by
  rw [← List.getElem_map List.length (h := by rw [List.length_map]; exact hi),
    ← List.getElem_map List.length (h := by rw [List.length_map]; exact hi')]
  simp only [h]

theorem runStart_congr (start : Nat) {runs runs' : List Bytes}
    (h : runs.map List.length = runs'.map List.length) (i : Nat) :
    runStart start runs i = runStart start runs' i := by
  have htake : (runs.take i).map List.length = (runs'.take i).map List.length := by
    rw [List.map_take, List.map_take, h]
  rw [runStart, runStart, List.length_flatten, List.length_flatten, htake]

/-- Different runs do not overlap. -/
theorem disjoint_runs (start : Nat) {runs : List Bytes} {i j : Nat} (hi : i < runs.length)
    (hj : j < runs.length) (hne : j ≠ i) :
    Span.stop ⟨runStart start runs j, runs[j].length⟩ ≤ runStart start runs i
      ∨ Span.stop ⟨runStart start runs i, runs[i].length⟩ ≤ runStart start runs j := by
  rw [Span.stop, Span.stop, ← runStart_succ start hi, ← runStart_succ start hj]
  rcases Nat.lt_or_gt_of_ne hne with hlt | hgt
  · exact Or.inl (runStart_mono start runs hlt)
  · exact Or.inr (runStart_mono start runs hgt)

/-- Replacing a run by another one of the same length keeps all lengths. -/
theorem map_length_set {runs : List Bytes} {i : Nat} (hi : i < runs.length) {new : Bytes}
    (h : new.length = runs[i].length) :
    (runs.set i new).map List.length = runs.map List.length := by
  rw [List.map_set, h, ← List.getElem_map List.length (h := by rw [List.length_map]; exact hi),
    List.set_getElem_self]

end Layout

end BinarySchema
