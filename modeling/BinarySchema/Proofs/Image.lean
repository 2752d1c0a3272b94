/-
# Images of vectors, dicts and maps

An image is the byte string that a header and its parts make up: `vectorImage chunks` has the table
of the chunks in front of them, `dictImage chunks keys` the keys behind that, and `mapImage fixed
chunks` the table between the fixed region and the chunks of the optional fields.  An empty chunk is
a hole.

Whatever follows an image, the offsets that are read from it are those of its parts, as long as they
fit a header word: the counts, the spans of the chunks, the keys, and the used length.
-/
import BinarySchema.Proofs.Word

namespace BinarySchema

namespace Layout

variable {chunks keys : List Bytes} {fixed rest : Bytes} {i keyLength : Nat}

/-- The span of a chunk of the given length, if it has any bytes. -/
theorem storedSpan?_chunk {b : Bytes} {start length : Nat} (h : start + length ≤ b.length) :
    storedSpan? b (some start) (some (start + length))
      = if length = 0 then none else some ⟨start, length⟩ := by
  have heq : storedSpan? b (some start) (some (start + length))
      = if start + length ≤ b.length then Span.between? start (start + length) else none := rfl
  rw [heq, if_pos h, Span.between?_add]

theorem storedSpan?_fits {b : Bytes} {start stop : Option Nat} {span : Span}
    (h : storedSpan? b start stop = some span) : span.Fits b := by
  cases start with
  | none => cases h
  | some start =>
    cases stop with
    | none => cases h
    | some stop =>
      have heq : storedSpan? b (some start) (some stop)
          = if stop ≤ b.length then Span.between? start stop else none := rfl
      rw [heq, Span.between?] at h
      split_ifs at h with hstop hlt
      rw [Option.some.injEq] at h
      simp only [← h, Span.Fits, Span.stop]
      omega

/-- A span that ends in a byte string does not depend on what is appended. -/
theorem storedSpan?_append {b : Bytes} {start : Option Nat} {stop : Nat} (h : stop ≤ b.length)
    (c : Bytes) : storedSpan? (b ++ c) start (some stop) = storedSpan? b start (some stop) := by
  cases start with
  | none => rfl
  | some start =>
    have heq : ∀ d : Bytes, storedSpan? d (some start) (some stop)
        = if stop ≤ d.length then Span.between? start stop else none := fun d => rfl
    rw [heq, heq, if_pos h, if_pos (by rw [List.length_append]; omega)]

/-! ## Vectors -/

/-- A vector whose items have the given bytes. -/
def vectorImage (chunks : List Bytes) : Bytes :=
  words (chunks.length :: headerLength chunks.length :: ends (headerLength chunks.length) chunks)
    ++ chunks.flatten

/-- The number of bytes of the table of a vector. -/
theorem length_vectorTable (chunks : List Bytes) :
    (words (chunks.length :: headerLength chunks.length
      :: ends (headerLength chunks.length) chunks)).length = headerLength chunks.length := by
  rw [length_words, List.length_cons, List.length_cons, length_ends, headerLength]
  ring

@[simp] theorem length_vectorImage (chunks : List Bytes) :
    (vectorImage chunks).length = headerLength chunks.length + chunks.flatten.length := by
  rw [vectorImage, List.length_append, length_vectorTable]

theorem headerLength_pos (n : Nat) : 0 < headerLength n := by
  unfold headerLength Word.width
  omega

/-- The number of items is below the number of bytes. -/
theorem length_lt_vectorImage (chunks : List Bytes) :
    chunks.length < (vectorImage chunks).length := by
  rw [length_vectorImage, headerLength, Word.width]
  omega

/-- The count and the offsets of a vector are stored as they are. -/
theorem storedOffset?_vectorImage (hsmall : (vectorImage chunks).length < 2 ^ 32)
    (hi : i ≤ chunks.length) :
    storedOffset? (vectorImage chunks ++ rest) (entryOffset i)
      = some (runStart (headerLength chunks.length) chunks i) := by
  have hlength : i + 1 < (chunks.length :: headerLength chunks.length
      :: ends (headerLength chunks.length) chunks).length := by
    simp only [List.length_cons, length_ends]
    omega
  have hentry : (chunks.length :: headerLength chunks.length
      :: ends (headerLength chunks.length) chunks)[i + 1]
      = runStart (headerLength chunks.length) chunks i := by
    rw [List.getElem_cons_succ, getElem_start_cons_ends]
  have hle := runStart_le (headerLength chunks.length) chunks i
  rw [length_vectorImage] at hsmall
  rw [vectorImage, List.append_assoc, ← List.nil_append (words _ ++ _), ← List.append_assoc,
    storedOffset?_words (i := i + 1) (by rw [List.length_nil, entryOffset]; ring) hlength
      (by rw [hentry]; omega), hentry]

theorem storedCount_vectorImage (hsmall : (vectorImage chunks).length < 2 ^ 32) :
    storedCount (vectorImage chunks ++ rest) = chunks.length := by
  have hlt := length_lt_vectorImage chunks
  apply lengthAt_of_storedOffset?
  rw [vectorImage, List.append_assoc, ← List.nil_append (words _ ++ _), ← List.append_assoc,
    storedOffset?_words (i := 0) (by rw [List.length_nil, Nat.zero_mul]) (by simp)
      (by rw [List.getElem_cons_zero]; omega), List.getElem_cons_zero]

/-- A vector ends where its image does. -/
theorem vectorEnd_vectorImage (hsmall : (vectorImage chunks).length < 2 ^ 32) :
    vectorEnd (vectorImage chunks ++ rest) = (vectorImage chunks).length := by
  rw [vectorEnd, storedCount_vectorImage hsmall]
  apply lengthAt_of_storedOffset?
  rw [storedOffset?_vectorImage hsmall (le_refl _), runStart_length, length_vectorImage]

/-- The used length of a vector is that of its image. -/
theorem usedLength_vectorImage (item : Layout) (limit : Option Nat)
    (hsmall : (vectorImage chunks).length < 2 ^ 32) :
    usedLength (.vector item limit) (vectorImage chunks ++ rest) = (vectorImage chunks).length := by
  rw [usedLength]
  rw [vectorEnd_vectorImage hsmall, List.length_append]
  omega

/-- Each chunk is found, unless it is a hole. -/
theorem vectorSpan?_vectorImage (hsmall : (vectorImage chunks).length < 2 ^ 32)
    (hi : i < chunks.length) :
    vectorSpan? (vectorImage chunks ++ rest) i = if chunks[i].length = 0 then none
      else some ⟨runStart (headerLength chunks.length) chunks i, chunks[i].length⟩ := by
  have hfits : runStart (headerLength chunks.length) chunks i + chunks[i].length
      ≤ (vectorImage chunks ++ rest).length := by
    rw [← runStart_succ _ hi, List.length_append, length_vectorImage]
    have := runStart_le (headerLength chunks.length) chunks (i + 1)
    omega
  rw [vectorSpan?, storedCount_vectorImage hsmall, if_pos hi,
    storedOffset?_vectorImage hsmall (by omega), storedOffset?_vectorImage hsmall (by omega),
    runStart_succ _ hi, storedSpan?_chunk hfits]

theorem vectorSpan?_of_le (hsmall : (vectorImage chunks).length < 2 ^ 32)
    (hi : chunks.length ≤ i) : vectorSpan? (vectorImage chunks ++ rest) i = none := by
  rw [vectorSpan?, storedCount_vectorImage hsmall, if_neg (by omega)]

/-- Where the chunks are depends on their lengths only. -/
theorem vectorSpan?_congr {chunks' : List Bytes} {rest' : Bytes}
    (hsmall : (vectorImage chunks).length < 2 ^ 32)
    (h : chunks'.map List.length = chunks.map List.length) (i : Nat) :
    vectorSpan? (vectorImage chunks' ++ rest') i = vectorSpan? (vectorImage chunks ++ rest) i := by
  have hcount := length_congr h
  have hsmall' : (vectorImage chunks').length < 2 ^ 32 := by
    rw [length_vectorImage, hcount, length_flatten_congr h, ← length_vectorImage]
    exact hsmall
  by_cases hi : i < chunks.length
  · have hi' : i < chunks'.length := by omega
    rw [vectorSpan?_vectorImage hsmall hi, vectorSpan?_vectorImage hsmall' hi',
      length_getElem_congr h hi' hi, hcount, runStart_congr _ h]
  · rw [vectorSpan?_of_le hsmall (by omega), vectorSpan?_of_le hsmall' (by omega)]

/-- The bytes of a chunk are found under its span. -/
theorem slice_vectorImage (hi : i < chunks.length) :
    Span.slice ⟨runStart (headerLength chunks.length) chunks i, chunks[i].length⟩
      (vectorImage chunks ++ rest) = chunks[i] := by
  have h := slice_run (a := words (chunks.length :: headerLength chunks.length
    :: ends (headerLength chunks.length) chunks)) (c := rest) hi
  rw [length_vectorTable] at h
  rw [vectorImage, h]

/-- Rewriting the bytes of a chunk by as many others gives the image with the other chunk. -/
theorem splice_vectorImage (hi : i < chunks.length) {new : Bytes}
    (hnew : new.length = chunks[i].length) :
    Span.splice ⟨runStart (headerLength chunks.length) chunks i, chunks[i].length⟩
      (vectorImage chunks ++ rest) new = vectorImage (chunks.set i new) ++ rest := by
  have h := splice_run (a := words (chunks.length :: headerLength chunks.length
    :: ends (headerLength chunks.length) chunks)) (c := rest) hi new
  rw [length_vectorTable] at h
  rw [vectorImage, h, vectorImage, List.length_set, ends_congr _ (map_length_set hi hnew)]

/-! ## Dicts -/

/-- A dict whose values and keys have the given bytes. -/
def dictImage (chunks keys : List Bytes) : Bytes :=
  vectorImage chunks
    ++ (Word.toBytes (Word.ofLength ((vectorImage chunks).length + Word.width)) ++ keys.flatten)

@[simp] theorem length_dictImage (chunks keys : List Bytes) :
    (dictImage chunks keys).length
      = (vectorImage chunks).length + Word.width + keys.flatten.length := by
  rw [dictImage, List.length_append, List.length_append, Word.length_toBytes]
  omega

/-- A dict is a vector of its values with more behind it. -/
theorem dictImage_append (chunks keys : List Bytes) (rest : Bytes) :
    dictImage chunks keys ++ rest = vectorImage chunks
      ++ (Word.toBytes (Word.ofLength ((vectorImage chunks).length + Word.width)) ++ keys.flatten
        ++ rest) := by
  unfold dictImage
  simp only [List.append_assoc]

theorem vectorImage_lt_of_dictImage (hsmall : (dictImage chunks keys).length < 2 ^ 32) :
    (vectorImage chunks).length < 2 ^ 32 := by
  rw [length_dictImage] at hsmall
  omega

/-- The keys begin behind the values and the word that says so. -/
theorem keysOffset_dictImage (rest : Bytes) (hsmall : (dictImage chunks keys).length < 2 ^ 32) :
    keysOffset (dictImage chunks keys ++ rest) = (vectorImage chunks).length + Word.width := by
  have hvector := vectorImage_lt_of_dictImage hsmall
  rw [length_dictImage] at hsmall
  unfold keysOffset
  conv_lhs => rw [dictImage_append]
  rw [vectorEnd_vectorImage hvector]
  apply lengthAt_of_storedOffset?
  rw [storedOffset?, List.append_assoc, ← List.append_assoc, Word.read?_middle rfl,
    Option.map_some, Word.toNat_ofLength (by omega)]

/-- Keys of one length make up as many bytes as there are keys of that length. -/
theorem length_flatten_of_length_eq (h : ∀ key ∈ keys, key.length = keyLength) :
    keys.flatten.length = keys.length * keyLength := by
  induction keys with
  | nil => rw [List.flatten_nil, List.length_nil, List.length_nil, Nat.zero_mul]
  | cons key keys ih =>
    rw [List.flatten_cons, List.length_append, h key List.mem_cons_self,
      ih fun k hk => h k (List.mem_cons_of_mem _ hk), List.length_cons, Nat.succ_mul, Nat.add_comm]

/-- All keys of a dict are found. -/
theorem keyCount_dictImage (hsmall : (dictImage chunks keys).length < 2 ^ 32)
    (hcount : keys.length = chunks.length) (hkeys : ∀ key ∈ keys, key.length = keyLength) :
    keyCount keyLength (dictImage chunks keys ++ rest) = chunks.length := by
  have hoffset := keysOffset_dictImage rest hsmall
  have hstored : storedCount (dictImage chunks keys ++ rest) = chunks.length := by
    rw [dictImage_append, storedCount_vectorImage (vectorImage_lt_of_dictImage hsmall)]
  have hlength : (dictImage chunks keys ++ rest).length
      = (vectorImage chunks).length + Word.width + chunks.length * keyLength + rest.length := by
    rw [List.length_append, length_dictImage, length_flatten_of_length_eq hkeys, hcount]
  rw [keyCount, hoffset, hstored, hlength]
  split_ifs with hzero hle
  · rfl
  · omega
  -- what is behind the keys has room for more of them, but no more are stored
  · have hroom : (vectorImage chunks).length + Word.width + chunks.length * keyLength
        + rest.length - ((vectorImage chunks).length + Word.width)
        = chunks.length * keyLength + rest.length := by omega
    rw [hroom, Nat.min_eq_left]
    rw [Nat.le_div_iff_mul_le (Nat.pos_of_ne_zero hzero)]
    omega

/-- Where a key begins among keys of one length. -/
theorem runStart_of_length_eq (start : Nat) (hkeys : ∀ key ∈ keys, key.length = keyLength)
    (hi : i ≤ keys.length) : runStart start keys i = start + i * keyLength := by
  have htake : ∀ key ∈ keys.take i, key.length = keyLength := fun key hkey =>
    hkeys key (List.mem_of_mem_take hkey)
  rw [runStart, length_flatten_of_length_eq htake, List.length_take, Nat.min_eq_left hi]

/-- Each key is found. -/
theorem slice_keySpan (hsmall : (dictImage chunks keys).length < 2 ^ 32)
    (hkeys : ∀ key ∈ keys, key.length = keyLength) (hi : i < keys.length) :
    (keySpan keyLength (dictImage chunks keys ++ rest) i).slice (dictImage chunks keys ++ rest)
      = keys[i] := by
  have hspan : keySpan keyLength (dictImage chunks keys ++ rest) i
      = ⟨runStart (vectorImage chunks
          ++ Word.toBytes (Word.ofLength ((vectorImage chunks).length + Word.width))).length keys i,
        keys[i].length⟩ := by
    rw [keySpan, keysOffset_dictImage rest hsmall, runStart_of_length_eq _ hkeys (by omega),
      List.length_append, Word.length_toBytes, hkeys _ (List.getElem_mem hi)]
  have himage : dictImage chunks keys ++ rest = vectorImage chunks
      ++ Word.toBytes (Word.ofLength ((vectorImage chunks).length + Word.width)) ++ keys.flatten
        ++ rest := by
    unfold dictImage
    simp only [List.append_assoc]
  rw [hspan, himage, slice_run hi]

theorem storedCount_dictImage (hsmall : (dictImage chunks keys).length < 2 ^ 32) :
    storedCount (dictImage chunks keys ++ rest) = chunks.length := by
  rw [dictImage_append, storedCount_vectorImage (vectorImage_lt_of_dictImage hsmall)]

/-- The used length of a dict is that of its image. -/
theorem usedLength_dictImage (key value : Layout) {keyLength : Nat}
    (hsmall : (dictImage chunks keys).length < 2 ^ 32) (hcount : keys.length = chunks.length)
    (hkeys : ∀ k ∈ keys, k.length = keyLength) :
    usedLength (.dict key keyLength value) (dictImage chunks keys ++ rest)
      = (dictImage chunks keys).length := by
  rw [usedLength]
  rw [keysOffset_dictImage rest hsmall, storedCount_dictImage hsmall, List.length_append,
    length_dictImage, length_flatten_of_length_eq hkeys, hcount]
  omega

/-! ## Maps -/

/-- Where the optional fields begin behind a fixed region and a table of so many entries. -/
def optionalStart (region count : Nat) : Nat := region + count * Word.width + Word.width

/-- A map with the given bytes in the fixed region and for each optional field. -/
def mapImage (fixed : Bytes) (chunks : List Bytes) : Bytes :=
  fixed ++ words (ends (optionalStart fixed.length chunks.length) chunks
      ++ [optionalStart fixed.length chunks.length + chunks.flatten.length])
    ++ chunks.flatten

/-- The number of bytes in front of the optional fields. -/
theorem length_mapHead (fixed : Bytes) (chunks : List Bytes) :
    (fixed ++ words (ends (optionalStart fixed.length chunks.length) chunks
      ++ [optionalStart fixed.length chunks.length + chunks.flatten.length])).length
      = optionalStart fixed.length chunks.length := by
  rw [List.length_append, length_words, List.length_append, length_ends, List.length_singleton,
    optionalStart]
  ring

@[simp] theorem length_mapImage (fixed : Bytes) (chunks : List Bytes) :
    (mapImage fixed chunks).length
      = optionalStart fixed.length chunks.length + chunks.flatten.length := by
  rw [mapImage, List.length_append, length_mapHead]

/-- The words of a map: the end offsets, and the used length behind them. -/
theorem storedOffset?_mapImage_ofLength (hi : i ≤ chunks.length) :
    storedOffset? (mapImage fixed chunks ++ rest) (fixed.length + i * Word.width)
      = some (Word.ofLength
        (runStart (optionalStart fixed.length chunks.length) chunks (i + 1))).toNat := by
  have hlength : i < (ends (optionalStart fixed.length chunks.length) chunks
      ++ [optionalStart fixed.length chunks.length + chunks.flatten.length]).length := by
    simp only [List.length_append, length_ends, List.length_singleton]
    omega
  -- the last entry of the table is the used length, the end of all chunks
  have hentry : (ends (optionalStart fixed.length chunks.length) chunks
      ++ [optionalStart fixed.length chunks.length + chunks.flatten.length])[i]
      = runStart (optionalStart fixed.length chunks.length) chunks (i + 1) := by
    by_cases hlast : i < chunks.length
    · rw [List.getElem_append_left (by rw [length_ends]; exact hlast), getElem_ends]
    · rw [List.getElem_append_right (by rw [length_ends]; omega), List.getElem_singleton, runStart,
        List.take_of_length_le (by omega)]
  rw [mapImage, List.append_assoc, storedOffset?_words_ofLength rfl hlength, hentry]

/-- The end offsets of a map, and its used length behind them. -/
theorem storedOffset?_mapImage (hsmall : (mapImage fixed chunks).length < 2 ^ 32)
    (hi : i ≤ chunks.length) :
    storedOffset? (mapImage fixed chunks ++ rest) (fixed.length + i * Word.width)
      = some (runStart (optionalStart fixed.length chunks.length) chunks (i + 1)) := by
  have hle := runStart_le (optionalStart fixed.length chunks.length) chunks (i + 1)
  rw [length_mapImage] at hsmall
  rw [storedOffset?_mapImage_ofLength hi, Word.toNat_ofLength (by omega)]

/-- The used length of a map is that of its image. -/
theorem lengthAt_mapImage (hsmall : (mapImage fixed chunks).length < 2 ^ 32) :
    Word.lengthAt (mapImage fixed chunks ++ rest) (fixed.length + chunks.length * Word.width)
      = (mapImage fixed chunks).length := by
  apply lengthAt_of_storedOffset?
  rw [storedOffset?_mapImage hsmall (le_refl _), runStart, List.take_of_length_le (by omega),
    length_mapImage]

theorem usedLength_mapImage {fields : List (Field Layout)}
    (hfixed : fixed.length = fixedRegion fields) (hcount : chunks.length = optionalCount fields)
    (hsmall : (mapImage fixed chunks).length < 2 ^ 32) :
    usedLength (.map fields) (mapImage fixed chunks ++ rest) = (mapImage fixed chunks).length := by
  rw [usedLength]
  rw [usedLengthOffset, endOffset, ← hfixed, ← hcount, lengthAt_mapImage hsmall, List.length_append]
  omega

/-- Each chunk is found, unless it is a hole. -/
theorem optionalSpan?_mapImage (rest : Bytes) (hsmall : (mapImage fixed chunks).length < 2 ^ 32)
    (hi : i < chunks.length) :
    optionalSpan? fixed.length (optionalStart fixed.length chunks.length)
        (mapImage fixed chunks ++ rest) i
      = if chunks[i].length = 0 then none
        else some ⟨runStart (optionalStart fixed.length chunks.length) chunks i,
          chunks[i].length⟩ := by
  have hfits : runStart (optionalStart fixed.length chunks.length) chunks i + chunks[i].length
      ≤ (mapImage fixed chunks ++ rest).length := by
    rw [← runStart_succ _ hi, List.length_append, length_mapImage]
    have := runStart_le (optionalStart fixed.length chunks.length) chunks (i + 1)
    omega
  -- the first field begins behind the table, any other one where its predecessor ends
  have hstart : (if i = 0 then some (optionalStart fixed.length chunks.length)
      else storedOffset? (mapImage fixed chunks ++ rest) (fixed.length + (i - 1) * Word.width))
      = some (runStart (optionalStart fixed.length chunks.length) chunks i) := by
    by_cases hzero : i = 0
    · rw [if_pos hzero, hzero, runStart_zero]
    · rw [if_neg hzero, storedOffset?_mapImage hsmall (by omega), Nat.sub_add_cancel (by omega)]
  unfold optionalSpan?
  dsimp only
  rw [hstart, storedOffset?_mapImage hsmall (by omega), runStart_succ _ hi,
    storedSpan?_chunk hfits]

/-- Where an optional field is does not depend on what stands behind the image, also where its end
does not fit a word. -/
theorem optionalSpan?_mapImage_append (hi : i < chunks.length) (c : Bytes) :
    optionalSpan? fixed.length (optionalStart fixed.length chunks.length)
        (mapImage fixed chunks ++ rest ++ c) i
      = optionalSpan? fixed.length (optionalStart fixed.length chunks.length)
        (mapImage fixed chunks ++ rest) i := by
  -- what is stored is at most the end itself, which lies in the image
  have hstop : (Word.ofLength
      (runStart (optionalStart fixed.length chunks.length) chunks (i + 1))).toNat
      ≤ (mapImage fixed chunks ++ rest).length := by
    have hle := runStart_le (optionalStart fixed.length chunks.length) chunks (i + 1)
    rw [← length_mapImage] at hle
    rw [List.length_append]
    exact le_trans (Word.toNat_ofLength_le _) (le_trans hle (Nat.le_add_right _ _))
  have hstart : (if i = 0 then some (optionalStart fixed.length chunks.length)
        else storedOffset? (mapImage fixed chunks ++ rest ++ c)
          (fixed.length + (i - 1) * Word.width))
      = if i = 0 then some (optionalStart fixed.length chunks.length)
        else storedOffset? (mapImage fixed chunks ++ rest)
          (fixed.length + (i - 1) * Word.width) := by
    rw [List.append_assoc, storedOffset?_mapImage_ofLength (by omega),
      storedOffset?_mapImage_ofLength (by omega)]
  unfold optionalSpan?
  dsimp only
  rw [hstart, List.append_assoc, storedOffset?_mapImage_ofLength (le_of_lt hi),
    storedOffset?_mapImage_ofLength (le_of_lt hi), ← List.append_assoc, storedSpan?_append hstop]

/-- Where the chunks are depends on the lengths of the parts only. -/
theorem optionalSpan?_congr {fixed' : Bytes} {chunks' : List Bytes} (rest rest' : Bytes)
    (hsmall : (mapImage fixed chunks).length < 2 ^ 32) (hfixed : fixed'.length = fixed.length)
    (h : chunks'.map List.length = chunks.map List.length) (hi : i < chunks.length) :
    optionalSpan? fixed.length (optionalStart fixed.length chunks.length)
        (mapImage fixed' chunks' ++ rest') i
      = optionalSpan? fixed.length (optionalStart fixed.length chunks.length)
        (mapImage fixed chunks ++ rest) i := by
  have hcount := length_congr h
  have hsmall' : (mapImage fixed' chunks').length < 2 ^ 32 := by
    rw [length_mapImage, hfixed, hcount, length_flatten_congr h, ← length_mapImage]
    exact hsmall
  have hi' : i < chunks'.length := by omega
  have hspan := optionalSpan?_mapImage rest' hsmall' hi'
  rw [hfixed, hcount, length_getElem_congr h hi' hi, runStart_congr _ h] at hspan
  rw [hspan, optionalSpan?_mapImage rest hsmall hi]

/-- The bytes of a chunk are found under its span. -/
theorem slice_mapImage (fixed rest : Bytes) (hi : i < chunks.length) :
    Span.slice ⟨runStart (optionalStart fixed.length chunks.length) chunks i, chunks[i].length⟩
      (mapImage fixed chunks ++ rest) = chunks[i] := by
  have h := slice_run (a := fixed ++ words (ends (optionalStart fixed.length chunks.length) chunks
    ++ [optionalStart fixed.length chunks.length + chunks.flatten.length])) (c := rest) hi
  rw [length_mapHead] at h
  rw [mapImage, h]

/-- Rewriting the bytes of a chunk by as many others gives the image with the other chunk. -/
theorem splice_mapImage (hi : i < chunks.length) {new : Bytes}
    (hnew : new.length = chunks[i].length) :
    Span.splice ⟨runStart (optionalStart fixed.length chunks.length) chunks i, chunks[i].length⟩
      (mapImage fixed chunks ++ rest) new = mapImage fixed (chunks.set i new) ++ rest := by
  have h := splice_run (a := fixed ++ words (ends (optionalStart fixed.length chunks.length) chunks
    ++ [optionalStart fixed.length chunks.length + chunks.flatten.length])) (c := rest) hi new
  have hlengths := map_length_set hi hnew
  have hflatten : (chunks.set i new).flatten.length = chunks.flatten.length := by
    rw [List.length_flatten, List.length_flatten, hlengths]
  rw [length_mapHead] at h
  rw [mapImage, h, mapImage, List.length_set, ends_congr _ hlengths, hflatten]

end Layout

end BinarySchema
