/-
# Writing replaces the front of a byte string

What is written of a value depends on the value and on the room that there is, but not on the bytes
that were there before, and every byte behind it stays as it was (`Layout.encode_splices`).

The proof follows the parts.  A slot that is cut to the size of its value is filled with the same
bytes whatever it held (`Fills`), so that no part leaves anything behind for the next one
(`Layout.exists_places`).  The one exception is an optional field that is cut off below that size:
only texts and blobs fill such a slot, and so the layouts are those that cut off nothing else
(`Layout.CapsContents`).
-/
import BinarySchema.Proofs.Workspace

namespace BinarySchema

/-! ## Replacing the front -/

/-- In every byte string of `n` bytes the front is replaced by `e`, and the rest is kept. -/
def Splices (put : Bytes → Written) (n : Nat) (e : Bytes) : Prop :=
  e.length ≤ n ∧ ∀ b, b.length = n → put b = ⟨e ++ b.drop e.length, e.length⟩

/-- In every byte string the front is replaced, namely `total` bytes if there are so many. -/
def SplicesUpTo (put : Bytes → Written) (total : Nat) : Prop :=
  ∀ n, ∃ e, Splices put n e ∧ (total ≤ n → e.length = total)

/-- Every slot of `n` bytes is filled with the same bytes. -/
def Fills (put : Bytes → Written) (n : Nat) : Prop := ∃ e, Splices put n e ∧ e.length = n

variable {put : Bytes → Written} {n total : Nat} {e : Bytes}

/-- A byte string that is too short for anything is kept. -/
theorem splices_nothing (h : ∀ b, b.length = n → put b = .nothing b) : Splices put n [] :=
  ⟨Nat.zero_le n, h⟩

theorem SplicesUpTo.fills (h : SplicesUpTo put total) : Fills put total := by
  obtain ⟨e, he, hlength⟩ := h total
  exact ⟨e, he, hlength (le_refl total)⟩

/-- What fills a slot takes all of it. -/
theorem Fills.exists_eq (h : Fills put n) : ∃ e : Bytes, e.length = n ∧ ∀ b, b.length = n →
    put b = ⟨e, n⟩ := by
  obtain ⟨e, ⟨-, hput⟩, hlength⟩ := h
  refine ⟨e, hlength, fun b hb => ?_⟩
  rw [hput b hb, hlength, List.drop_of_length_le (le_of_eq hb), List.append_nil]

/-- What takes all of a slot, and makes the same of every one, fills it. -/
theorem fills_of_congr (hkeeps : Keeps put) (hlength : ∀ b, b.length = n → (put b).length = n)
    (hcongr : ∀ a b, a.length = n → b.length = n → put a = put b) : Fills put n := by
  have hbytes : (put (zeros n)).bytes.length = n := by
    rw [(hkeeps (zeros n)).1, length_zeros]
  refine ⟨(put (zeros n)).bytes, ⟨le_of_eq hbytes, fun b hb => ?_⟩, hbytes⟩
  rw [hbytes, List.drop_of_length_le (le_of_eq hb), List.append_nil,
    hcongr b (zeros n) hb (length_zeros n)]
  exact congrArg (Written.mk _) (hlength _ (length_zeros n))

/-- A slot may be prepared before it is filled. -/
theorem Fills.comp {prepare : Bytes → Bytes} (h : Fills put n)
    (hprepare : ∀ b, (prepare b).length = b.length) : Fills (fun b => put (prepare b)) n := by
  obtain ⟨e, hlength, hput⟩ := h.exists_eq
  refine ⟨e, ⟨le_of_eq hlength, fun b hb => ?_⟩, hlength⟩
  dsimp only
  rw [hput (prepare b) ((hprepare b).trans hb), hlength, List.drop_of_length_le (le_of_eq hb),
    List.append_nil]

namespace Layout

variable {layout item : Layout} {v : Value} {u : Unsupplied} {cap : Option Nat} {content : Bytes}
  {f : Field Layout} {fields : List (Field Layout)}

/-! ## Parts -/

/-- In every byte string of `n` bytes the parts become the chunks, and what is left is as it was. -/
structure Places (parts : List (Option Part)) (n : Nat) (chunks : List Bytes) : Prop where
  /-- There is a chunk for each part. -/
  count : chunks.length = parts.length
  /-- There is room for the chunks. -/
  room : chunks.flatten.length ≤ n
  /-- Where there is room for all parts, the chunks are as long as these ask for. -/
  full : needs parts ≤ n → chunks.flatten.length = needs parts
  /-- What the parts become. -/
  place : ∀ b, b.length = n → Layout.place parts b = (chunks, b.drop chunks.flatten.length)

/-- One part becomes the same chunk in all byte strings of one length. -/
theorem exists_placeOne {part : Option Part} (h : ∀ p, part = some p → Fills p.put p.need)
    (n : Nat) : ∃ chunk : Bytes, chunk.length ≤ n ∧ (need part ≤ n → chunk.length = need part)
      ∧ ∀ b, b.length = n → placeOne part b = (chunk, b.drop chunk.length) := by
  cases part with
  | none => exact ⟨[], Nat.zero_le n, fun _ => rfl, fun b _ => rfl⟩
  | some p =>
    rcases le_or_gt p.need n with hfits | hlong
    · obtain ⟨e, hlength, hput⟩ := (h p rfl).exists_eq
      refine ⟨e, by omega, fun _ => hlength, fun b hb => ?_⟩
      have hslot : (b.take p.need).length = p.need := by
        rw [List.length_take, Nat.min_eq_left (by omega)]
      -- the part uses up its slot, so that only what is behind the slot is left
      rw [placeOne_of_le (by omega), hput _ hslot, Written.value,
        List.take_of_length_le (le_of_eq hlength), List.drop_of_length_le (le_of_eq hlength),
        List.nil_append, hlength]
    · refine ⟨[], Nat.zero_le n, fun hle => absurd hle (by rw [need_some]; omega), fun b hb => ?_⟩
      exact placeOne_of_lt (by omega)

/-- **Parts.**  Parts that fill their slots become the same chunks in all byte strings of one length,
and leave what is behind these as it was. -/
theorem exists_places {parts : List (Option Part)}
    (h : ∀ part ∈ parts, ∀ p, part = some p → Fills p.put p.need) (n : Nat) :
    ∃ chunks, Places parts n chunks := by
  induction parts generalizing n with
  | nil => exact ⟨[], rfl, Nat.zero_le n, fun _ => rfl, fun b _ => rfl⟩
  | cons part parts ih =>
    obtain ⟨chunk, hroom, hfull, hplace⟩ := exists_placeOne (h part List.mem_cons_self) n
    obtain ⟨chunks, hchunks⟩ := ih (fun q hq => h q (List.mem_cons_of_mem _ hq)) (n - chunk.length)
    have hrest := hchunks.room
    have hflatten : (chunk :: chunks).flatten.length = chunk.length + chunks.flatten.length := by
      rw [List.flatten_cons, List.length_append]
    refine ⟨chunk :: chunks, congrArg (· + 1) hchunks.count, by omega, fun hneeds => ?_,
      fun b hb => ?_⟩
    · rw [needs_cons] at hneeds ⊢
      have hfirst := hfull (by omega)
      rw [hflatten, hfirst, hchunks.full (by omega)]
    · rw [Layout.place, hplace b hb, hflatten]
      dsimp only
      rw [hchunks.place _ (by rw [List.length_drop, hb]), List.drop_drop]

/-- Items that fill their slots do so as parts of a list. -/
theorem fills_itemParts {size : Value → Nat} {put : Value → Bytes → Written}
    (h : ∀ i, Fills (put i) (size i)) (items : List Value) :
    ∀ part ∈ itemParts size put items, ∀ p, part = some p → Fills p.put p.need := by
  intro part hpart p hp
  obtain ⟨i, -, hi⟩ := List.mem_map.mp hpart
  rw [hp] at hi
  split_ifs at hi
  rw [← Option.some.inj hi]
  exact h i

/-! ## Vectors and dicts -/

section Lists

variable {size : Value → Nat} {put : Value → Bytes → Written}

/-- **Vectors.**  A vector whose items fill their slots replaces the front. -/
theorem splices_writeVector (hkeeps : ∀ i, Keeps (put i)) (hfills : ∀ i, Fills (put i) (size i))
    (items : List Value) :
    SplicesUpTo (writeVector size put items)
      (headerLength items.length + needs (itemParts size put items)) := by
  intro n
  rcases Nat.lt_or_ge n (headerLength 0) with hshort | hroom
  · refine ⟨[], splices_nothing fun b hb => ?_, fun hle => ?_⟩
    · rw [writeVector, if_pos (by omega)]
    · rw [headerLength, Word.width] at hshort hle
      omega
  · obtain ⟨count, hcount⟩ : ∃ count, vectorCount items.length n = count := ⟨_, rfl⟩
    have hle : count ≤ items.length := hcount ▸ vectorCount_le _ _
    have hheader : headerLength count ≤ n := hcount ▸ headerLength_vectorCount_le _ hroom
    obtain ⟨chunks, hchunks⟩ := exists_places (fills_itemParts hfills (items.take count))
      (n - headerLength count)
    have hmany : chunks.length = count := by
      rw [hchunks.count, length_itemParts, List.length_take, Nat.min_eq_left hle]
    have himage : (vectorImage chunks).length = headerLength count + chunks.flatten.length := by
      rw [length_vectorImage, hmany]
    have hrest := hchunks.room
    refine ⟨vectorImage chunks, ⟨by omega, fun b hb => ?_⟩, fun htotal => ?_⟩
    · have hplace := hchunks.place (b.drop (headerLength count)) (by rw [List.length_drop, hb])
      rw [writeVector_eq count (by omega) (by rw [hb]; exact hcount)
        (allKeep_itemParts hkeeps size _) hplace, List.drop_drop, himage]
    · -- where there is room for all items, none is left out of the table
      have hall : count = items.length := by
        rw [← hcount]
        exact vectorCount_eq (by omega)
      have hfull := hchunks.full
      rw [hall, List.take_of_length_le (le_refl _)] at hfull
      rw [himage, hall, hfull (by omega)]

/-- Slots of one size become the same bytes, whatever they held. -/
theorem rewriteSlots_congr {stride : Nat} {fs : List (Bytes → Bytes)}
    (hf : ∀ g ∈ fs, ∀ x y : Bytes, x.length = stride → y.length = stride → g x = g y) {b c : Bytes}
    (hb : fs.length * stride ≤ b.length) (hc : fs.length * stride ≤ c.length) :
    rewriteSlots stride fs b = rewriteSlots stride fs c := by
  induction fs generalizing b c with
  | nil => rfl
  | cons g fs ih =>
    rw [List.length_cons, Nat.succ_mul] at hb hc
    rw [rewriteSlots, rewriteSlots, hf g List.mem_cons_self (b.take stride) (c.take stride),
      ih fun g hg => hf g (List.mem_cons_of_mem _ hg)]
    all_goals simp only [List.length_drop, List.length_take]; omega

/-- The bytes of a slice that ends at `room`, and what is behind it. -/
theorem drop_take_append_drop {k room : Nat} {b : Bytes} (hk : k ≤ room) (hroom : room ≤ b.length) :
    (b.take room).drop k ++ b.drop room = b.drop k := by
  have hsplit := List.take_append_drop room b
  conv_rhs => rw [← hsplit]
  rw [List.drop_append_of_le_length (by rw [List.length_take]; omega)]

/-- The entries of a dict that has room for their header and keys become the same values and keys in
all byte strings of one length, and leave what is behind these as it was. -/
theorem exists_placeEntries {keyLength : Nat} {putKey : String → Bytes → Bytes}
    (hfills : ∀ i, Fills (put i) (size i))
    (hkeys : ∀ name slot, slot.length = keyLength → (putKey name slot).length = keyLength)
    (hcongr : ∀ name x y, x.length = keyLength → y.length = keyLength →
      putKey name x = putKey name y) {entries : List (String × Value)} {n : Nat}
    (hroom : dictOverhead keyLength entries.length ≤ n) :
    ∃ chunks keys, (dictImage chunks keys).length ≤ n
      ∧ (dictOverhead keyLength entries.length + needs (itemParts size put (entries.map (·.2))) ≤ n →
        (dictImage chunks keys).length = dictOverhead keyLength entries.length
          + needs (itemParts size put (entries.map (·.2))))
      ∧ ∀ b, b.length = n → (placeValues keyLength size put entries b).1 = chunks
        ∧ placeKeys keyLength putKey size put entries b = keys
        ∧ (keyRoom keyLength size put entries b).drop (entries.length * keyLength)
          = b.drop (dictImage chunks keys).length := by
  -- the values have the room that the word and the keys leave, behind their header
  obtain ⟨chunks, hchunks⟩ := exists_places (fills_itemParts hfills (entries.map (·.2)))
    (n - Word.width - entries.length * keyLength - headerLength entries.length)
  obtain ⟨puts, hputs⟩ : ∃ puts, (entries.map fun e => putKey e.1) = puts := ⟨_, rfl⟩
  have hmany : puts.length = entries.length := by rw [← hputs, List.length_map]
  have hrest := hchunks.room
  have hvalues : (vectorImage chunks).length
      = headerLength entries.length + chunks.flatten.length := by
    rw [length_vectorImage, hchunks.count, length_itemParts, List.length_map]
  have hslots : puts.length * keyLength ≤ (zeros (entries.length * keyLength)).length := by
    rw [hmany, length_zeros]
  have hkeysLength : (rewriteSlots keyLength puts
      (zeros (entries.length * keyLength))).flatten.length = entries.length * keyLength := by
    rw [length_flatten_of_length_eq (length_of_mem_rewriteSlots ?_ hslots), length_rewriteSlots, hmany]
    intro g hg
    rw [← hputs] at hg
    obtain ⟨e, -, rfl⟩ := List.mem_map.mp hg
    exact hkeys e.1
  have himage : (dictImage chunks (rewriteSlots keyLength puts
      (zeros (entries.length * keyLength)))).length
      = headerLength entries.length + chunks.flatten.length + Word.width
        + entries.length * keyLength := by
    rw [length_dictImage, hvalues, hkeysLength]
  unfold dictOverhead at hroom ⊢
  refine ⟨chunks, rewriteSlots keyLength puts (zeros (entries.length * keyLength)),
    by rw [himage]; omega, fun htotal => ?_, fun b hb => ?_⟩
  · rw [himage, hchunks.full (by omega)]
    omega
  · have hplaced : placeValues keyLength size put entries b
        = (chunks, (b.take (valueRoom keyLength entries.length b)).drop
          (vectorImage chunks).length) := by
      rw [placeValues, hchunks.place, List.drop_drop, hvalues]
      rw [List.length_drop, List.length_take, valueRoom, hb]
      omega
    have hkeyRoom : keyRoom keyLength size put entries b
        = b.drop ((vectorImage chunks).length + Word.width) := by
      rw [keyRoom, hplaced]
      dsimp only
      rw [drop_take_append_drop, List.drop_drop]
      all_goals
        rw [valueRoom]
        omega
    have hplacedKeys : placeKeys keyLength putKey size put entries b
        = rewriteSlots keyLength puts (zeros (entries.length * keyLength)) := by
      rw [placeKeys, hkeyRoom, hputs]
      refine rewriteSlots_congr ?_ ?_ hslots
      · intro g hg
        rw [← hputs] at hg
        obtain ⟨e, -, rfl⟩ := List.mem_map.mp hg
        exact hcongr e.1
      · rw [hmany, List.length_drop, hb, hvalues]
        omega
    refine ⟨by rw [hplaced], hplacedKeys, ?_⟩
    rw [hkeyRoom, List.drop_drop, himage, hvalues]

/-- **Dicts.**  A dict whose values and keys fill their slots replaces the front. -/
theorem splices_writeDict {keyLength : Nat} {putKey : String → Bytes → Bytes}
    (hkeeps : ∀ i, Keeps (put i)) (hfills : ∀ i, Fills (put i) (size i))
    (hkeys : ∀ name slot, slot.length = keyLength → (putKey name slot).length = keyLength)
    (hcongr : ∀ name x y, x.length = keyLength → y.length = keyLength →
      putKey name x = putKey name y) (entries : List (String × Value)) :
    SplicesUpTo (writeDict keyLength putKey size put entries)
      (dictOverhead keyLength entries.length
        + needs (itemParts size put (entries.map (·.2)))) := by
  intro n
  rcases Nat.lt_or_ge n (dictOverhead keyLength 0) with hshort | hroom
  · refine ⟨[], splices_nothing fun b hb => ?_, fun hle => ?_⟩
    · rw [writeDict, if_pos (by omega)]
    · rw [dictOverhead_eq] at hle
      omega
  · obtain ⟨taken, htaken⟩ : ∃ taken, entries.take (dictCount keyLength entries.length n) = taken :=
      ⟨_, rfl⟩
    have hmany : taken.length = dictCount keyLength entries.length n := by
      rw [← htaken, List.length_take, Nat.min_eq_left (dictCount_le _ _ _)]
    have hoverhead : dictOverhead keyLength taken.length ≤ n := by
      rw [hmany]
      exact dictOverhead_dictCount_le _ hroom
    obtain ⟨chunks, keys, hle, hfull, hplaced⟩ :=
      exists_placeEntries (n := n) hfills hkeys hcongr hoverhead
    refine ⟨dictImage chunks keys, ⟨hle, fun b hb => ?_⟩, fun htotal => ?_⟩
    · obtain ⟨hvalues, hkeysEq, hleft⟩ := hplaced b hb
      have hentries : entries.take (dictCount keyLength entries.length b.length) = taken := by
        rw [hb]
        exact htaken
      rw [writeDict_eq size hkeeps hkeys (by omega) hentries, hvalues, hkeysEq, hleft]
    · -- where there is room for all entries, none is left out
      have hall : taken = entries := by
        rw [← htaken, dictCount_eq (by omega), List.take_of_length_le (le_refl _)]
      rw [hall] at hfull
      exact hfull htotal

end Lists

/-! ## Maps -/

/-- **Maps.**  A map whose optional fields fill their slots becomes the same bytes over all byte
strings that give it the same fixed region, and leaves what is behind these as it was. -/
theorem exists_writeMap (harranged : Arranged 0 0 fields)
    (hparts : ∀ f ∈ fields, f.layout.KeepsLength)
    (hfills : ∀ part ∈ optionalParts fields v, ∀ p, part = some p → Fills p.put p.need)
    (hroom : dataStart fields ≤ n) {fixed : Bytes} (hfixed : fixed.length = fixedRegion fields) :
    ∃ e : Bytes, e.length ≤ n
      ∧ (encodedLength (.map fields) v ≤ n → e.length = encodedLength (.map fields) v)
      ∧ ∀ u b, b.length = n → fixedBytes u fields v b = fixed →
        write u (.map fields) v b = ⟨e ++ b.drop e.length, e.length⟩ := by
  obtain ⟨chunks, hchunks⟩ := exists_places hfills (n - dataStart fields)
  have hrest := hchunks.room
  have himage : (mapImage fixed chunks).length = dataStart fields + chunks.flatten.length := by
    rw [length_mapImage, hfixed, hchunks.count, length_optionalParts, dataStart_eq]
  refine ⟨mapImage fixed chunks, by omega, fun htotal => ?_, fun u b hb hb' => ?_⟩
  · have hfull := hchunks.full
    rw [encodedLength, ← needs_optionalParts] at htotal ⊢
    rw [himage, hfull (by omega)]
  · have hplace := hchunks.place (b.drop (dataStart fields)) (by rw [List.length_drop, hb])
    rw [write_map harranged hparts (by omega) hplace, hb', List.drop_drop, himage]

/-! ## Layouts of one size -/

/-- What rewrites the front, by the number of its bytes alone, replaces it. -/
theorem exists_splices_of_onFront (hkeeps : Keeps put) {k : Nat} (hk : k ≤ n) {g : Bytes → Bytes}
    (hput : ∀ b, b.length = n → put b = ⟨onFront k g b, k⟩)
    (hcongr : ∀ r s : Bytes, r.length = s.length → g r = g s) :
    ∃ e, Splices put n e ∧ e.length = k := by
  have htake : ∀ b : Bytes, b.length = n → g (b.take k) = g (zeros k) := by
    intro b hb
    apply hcongr
    rw [List.length_take, length_zeros, hb, Nat.min_eq_left hk]
  have hlength : (g (zeros k)).length = k := by
    have hbytes := (hkeeps (zeros n)).1
    rw [hput _ (length_zeros n), onFront, htake _ (length_zeros n), List.length_append,
      List.length_drop, length_zeros] at hbytes
    omega
  refine ⟨g (zeros k), ⟨by omega, fun b hb => ?_⟩, hlength⟩
  rw [hput b hb, onFront, htake b hb, hlength]

/-- The content of a text or blob replaces the front. -/
theorem splices_writeContent (cap : Option Nat) (content : Bytes) :
    SplicesUpTo (writeContent cap content) (cap.getD (capped cap content.length)) := by
  intro n
  obtain ⟨length, hlength⟩ : ∃ length, min (capped cap content.length) n = length := ⟨_, rfl⟩
  obtain ⟨e, he, htake⟩ := exists_splices_of_onFront (n := n) (k := min (cap.getD length) n)
    (g := fun _ => content.take length ++ zeros (min (cap.getD length) n - length))
    (keeps_writeContent cap content) (Nat.min_le_right _ _) (by
      intro b hb
      rw [writeContent, hb, hlength]
      rfl) fun _ _ _ => rfl
  refine ⟨e, he, fun htotal => ?_⟩
  rw [htake, ← hlength]
  cases cap with
  | none =>
    rw [Option.getD_none] at htotal ⊢
    rw [Option.getD_none]
    omega
  | some m =>
    rw [Option.getD_some] at htotal ⊢
    rw [Option.getD_some]
    omega

/-- A content that is cut off fills its slot. -/
theorem fills_writeContent (h : n ≤ capped cap content.length) :
    Fills (writeContent cap content) n := by
  have hfilled : min (cap.getD n) n = n := by
    cases cap with
    | none => exact Nat.min_self n
    | some m => exact Nat.min_eq_right (le_trans h (Nat.min_le_right _ _))
  apply fills_of_congr (keeps_writeContent cap content)
  · intro b hb
    rw [writeContent, hb, Nat.min_eq_right h]
    exact hfilled
  · intro a b ha hb
    rw [writeContent, writeContent, ha, hb, Nat.min_eq_right h, hfilled,
      List.drop_of_length_le (le_of_eq ha), List.drop_of_length_le (le_of_eq hb)]

/-- A region that is rewritten as far as there are bytes replaces the front. -/
theorem splices_region (hkeeps : Keeps put) {k : Nat} {g : Bytes → Bytes}
    (hput : ∀ b, put b = ⟨onFront (min k b.length) g b, min k b.length⟩)
    (hcongr : ∀ r s : Bytes, r.length = s.length → g r = g s) : SplicesUpTo put k := by
  intro n
  obtain ⟨e, he, htake⟩ := exists_splices_of_onFront (n := n) hkeeps (Nat.min_le_right k n)
    (fun b hb => by rw [hput b, hb]) hcongr
  exact ⟨e, he, fun htotal => by rw [htake, Nat.min_eq_left htotal]⟩

/-- A region that is rewritten in full or not at all replaces the front. -/
theorem splices_whole (hkeeps : Keeps put) {k : Nat} {g : Bytes → Bytes}
    (hshort : ∀ b, b.length < k → put b = .nothing b)
    (hput : ∀ b, k ≤ b.length → put b = ⟨onFront k g b, k⟩)
    (hcongr : ∀ r s : Bytes, r.length = s.length → g r = g s) : SplicesUpTo put k := by
  intro n
  rcases Nat.lt_or_ge n k with hlt | hle
  · exact ⟨[], splices_nothing fun b hb => hshort b (by omega),
      fun htotal => absurd htotal (by omega)⟩
  · obtain ⟨e, he, htake⟩ := exists_splices_of_onFront (n := n) hkeeps hle
      (fun b hb => hput b (by omega)) hcongr
    exact ⟨e, he, fun _ => htake⟩

/-- A value without a table replaces the front. -/
theorem splices_encode_of_not_isTable (hwf : layout.WellFormed) (htable : ¬ layout.IsTable)
    (v : Value) : SplicesUpTo (encode layout v) (freshLength layout v) := by
  have hkeeps : Keeps (encode layout v) := hwf.keepsLength.1 .cleared v
  -- whatever is not written is cleared, so that only the number of bytes counts
  cases layout with
  | primitive p =>
    have hwhole : SplicesUpTo (encode (.primitive p) v) p.width := by
      refine splices_whole (g := fun _ => p.write v) hkeeps (fun b hb => ?_) (fun b hb => ?_)
        fun _ _ _ => rfl
      · rw [encode, write, if_neg (by omega)]
      · rw [encode, write_primitive _ _ hb]
        rfl
    exact hwhole
  | text cap =>
    have hwrite : encode (.text cap) v = writeContent cap v.bytes := by
      funext b
      rw [encode, write]
    unfold freshLength encodedLength
    rw [hwrite]
    exact splices_writeContent cap v.bytes
  | blob cap =>
    have hwrite : encode (.blob cap) v = writeContent cap v.bytes := by
      funext b
      rw [encode, write]
    unfold freshLength encodedLength
    rw [hwrite]
    exact splices_writeContent cap v.bytes
  | array item stride capacity =>
    have hregion : SplicesUpTo (encode (.array item stride capacity) v) (capacity * stride) := by
      refine splices_region hkeeps (fun b => by rw [encode, write]) fun r s hrs => ?_
      simp only [Unsupplied.prepare, slotCount, hrs]
    exact hregion
  | packed p capacity =>
    have hregion : SplicesUpTo (encode (.packed p capacity) v) (packedLength p capacity) := by
      refine splices_region hkeeps (fun b => by rw [encode, write]) fun r s hrs => ?_
      simp only [slotCount, hrs]
    exact hregion
  | object fields =>
    have hwhole : SplicesUpTo (encode (.object fields) v) (fixedRegion fields) := by
      refine splices_whole (g := fun r => writeFixed fields v (zeros r.length)) hkeeps
        (fun b hb => ?_) (fun b hb => ?_) fun r s hrs => by rw [hrs]
      · rw [encode, write, if_pos hb]
      · rw [encode, write, if_neg (by omega)]
        rfl
    exact hwhole
  | _ => exact absurd True.intro htable

theorem length_template (hparts : ∀ f ∈ fields, f.layout.KeepsLength) :
    (template fields).length = fixedRegion fields := by
  rw [template, length_writeDefaults hparts, length_zeros]

/-- A layout of one size is seeded with the same bytes, whatever there was. -/
theorem WellFormed.seed_congr (hwf : layout.WellFormed) (hlayout : layout.fixedLength? = some n)
    {a b : Bytes} (ha : a.length = n) (hb : b.length = n) : seed layout a = seed layout b := by
  induction hwf generalizing n a b with
  | @array item stride capacity hitem hstride ih =>
    have hsize : capacity * stride = n := Option.some.inj hlayout
    have hslots : ∀ c : Bytes, c.length = n → seed (.array item stride capacity) c
        = (rewriteSlots stride (List.replicate capacity fun slot => seed item slot) c).flatten := by
      intro c hc
      rw [seed, slotCount_eq_capacity (by omega), onSlots_eq, List.length_replicate,
        List.drop_of_length_le (by omega), List.append_nil]
    have hsame : ∀ g ∈ List.replicate capacity fun slot => seed item slot, ∀ x y : Bytes,
        x.length = stride → y.length = stride → g x = g y := by
      intro g hg x y hx hy
      rw [List.eq_of_mem_replicate hg]
      exact ih hstride hx hy
    rw [hslots a ha, hslots b hb, rewriteSlots_congr hsame (b := a) (c := b)]
    all_goals
      rw [List.length_replicate]
      omega
  | @object fields hparts harranged hfixed hnames ih =>
    have hsize : fixedRegion fields = n := Option.some.inj hlayout
    have htemplate := length_template fun f hf => (hparts f hf).keepsLength
    rw [seed, seed, ← template, overlay_of_le (by omega), overlay_of_le (by omega),
      List.drop_of_length_le (by omega), List.drop_of_length_le (by omega)]
  | vector limit hitem ih => cases hlayout
  | dict hkey hlength hvalue ihkey ihvalue => cases hlayout
  | map hparts harranged hnames ih => cases hlayout
  | _ =>
    rw [seed_eq_onFront rfl (by simp), seed_eq_onFront rfl (by simp), hlayout, Option.getD_some,
      onFront, onFront, List.take_of_length_le (by omega), List.take_of_length_le (by omega),
      List.drop_of_length_le (by omega), List.drop_of_length_le (by omega), ha, hb]

theorem not_isTable_of_fixedLength (h : layout.fixedLength? = some n) : ¬ layout.IsTable := by
  intro htable
  cases layout with
  | vector item limit => cases h
  | dict key keyLength value => cases h
  | map fields => cases h
  | _ => exact htable

theorem freshLength_of_fixedLength (h : layout.fixedLength? = some n) (v : Value) :
    freshLength layout v = n := by
  rw [freshLength, h, Option.getD_some]

/-- A value of a layout of one size is encoded by itself over so many zeros. -/
theorem WellFormed.toBytes_of_fixedLength (hwf : layout.WellFormed)
    (hlayout : layout.fixedLength? = some n) (v : Value) :
    toBytes layout v = (encodeOver layout v (zeros n)).bytes := by
  rw [toBytes_eq_bytes hwf (not_isTable_of_fixedLength hlayout), freshLength_of_fixedLength hlayout]

/-- A value of a layout of one size fills so many bytes. -/
theorem WellFormed.fills_of_fixedLength (hwf : layout.WellFormed)
    (hlayout : layout.fixedLength? = some n) (v : Value) : Fills (encodeOver layout v) n := by
  apply fills_of_congr (hwf.keepsLength.encodeOver v)
  · intro b hb
    have hseed : (seed layout b).length = n := (hwf.keepsLength.2 b).trans hb
    rw [encodeOver, amend, length_write_fresh (not_isTable_of_fixedLength hlayout), hseed]
    rw [hseed, freshLength, hlayout, Option.getD_some]
  · intro a b ha hb
    rw [encodeOver, encodeOver, hwf.seed_congr hlayout ha hb]

/-! ## All layouts -/

/-- A text or blob. -/
def IsContent : Layout → Prop
  | .text _ | .blob _ => True
  | _ => False

/-- Of the optional fields of maps in the layout, only texts and blobs are cut off. -/
def CapsContents (layout : Layout) : Prop :=
  ∀ fields, Within (.map fields) layout → ∀ f ∈ fields, f.ordinal? ≠ none → f.maxLength ≠ none →
    f.layout.IsContent

theorem capsContents_text (cap : Option Nat) : (Layout.text cap).CapsContents := by
  intro fields h
  cases h

theorem CapsContents.vector (h : item.CapsContents) (limit : Option Nat) :
    (Layout.vector item limit).CapsContents := by
  intro fields hfields
  cases hfields with
  | vector hitem => exact h fields hitem

theorem CapsContents.map (hparts : ∀ f ∈ fields, f.layout.CapsContents)
    (hself : ∀ f ∈ fields, f.ordinal? ≠ none → f.maxLength ≠ none → f.layout.IsContent) :
    (Layout.map fields).CapsContents := by
  intro inner hinner
  cases hinner with
  | self => exact hself
  | map hf h => exact hparts _ hf inner h

/-- A text or blob fills every slot that is no longer than its content. -/
theorem fills_encodeOver_content (hcontent : layout.IsContent) (h : n ≤ encodedLength layout v) :
    Fills (encodeOver layout v) n := by
  cases layout with
  | text cap =>
    rw [encodedLength] at h
    have hover : encodeOver (.text cap) v =
        fun b => writeContent cap v.bytes (seed (.text cap) b) := by
      funext b
      rw [encodeOver, amend, write]
    rw [hover]
    exact (fills_writeContent h).comp (WellFormed.text cap).keepsLength.2
  | blob cap =>
    rw [encodedLength] at h
    have hover : encodeOver (.blob cap) v =
        fun b => writeContent cap v.bytes (seed (.blob cap) b) := by
      funext b
      rw [encodeOver, amend, write]
    rw [hover]
    exact (fills_writeContent h).comp (WellFormed.blob cap).keepsLength.2
  | _ => exact hcontent.elim

/-- Optional fields fill their slots, unless something other than a content is cut off. -/
theorem fills_optionalParts (hfills : ∀ f ∈ fields, ∀ x,
      Fills (encodeOver f.layout x) (encodedLength f.layout x))
    (hcaps : ∀ f ∈ fields, f.ordinal? ≠ none → f.maxLength ≠ none → f.layout.IsContent) :
    ∀ part ∈ optionalParts fields v, ∀ p, part = some p → Fills p.put p.need := by
  intro part hpart p hp
  obtain ⟨f, hf, rfl⟩ := List.mem_map.mp hpart
  obtain ⟨x, -, hx⟩ := Option.bind_eq_some_iff.mp hp
  split_ifs at hx
  rw [← Option.some.inj hx]
  dsimp only
  cases hmax : f.maxLength with
  | none => exact hfills f (mem_of_mem_optionals hf) x
  | some m =>
    refine fills_encodeOver_content (hcaps f (mem_of_mem_optionals hf)
      (ordinal?_ne_none_of_mem_optionals hf) (by rw [hmax]; exact Option.some_ne_none m)) ?_
    exact Nat.min_le_left _ _

/-- A key becomes the same bytes in every slot. -/
theorem putKey_congr {key : Layout} {keyLength : Nat} (hkey : key.WellFormed)
    (hlength : key.fixedLength? = some keyLength) (name : String) (x y : Bytes)
    (hx : x.length = keyLength) (hy : y.length = keyLength) :
    putKey key name x = putKey key name y := by
  have hfills := (splices_encode_of_not_isTable hkey (not_isTable_of_fixedLength hlength)
    (keyValue key name)).fills
  rw [freshLength, hlength, Option.getD_some] at hfills
  obtain ⟨e, -, hput⟩ := hfills.exists_eq
  rw [putKey, putKey, hput x hx, hput y hy]

/-- A vector whose items fill their slots replaces the front. -/
theorem splices_encode_vector (hwf : item.WellFormed) (limit : Option Nat)
    (hfills : ∀ i, Fills (encodeOver item i) (encodedLength item i)) (v : Value) :
    SplicesUpTo (encode (.vector item limit) v) (encodedLength (.vector item limit) v) := by
  have hencode : encode (.vector item limit) v
      = writeVector (encodedLength item) (encodeOver item) (admitted limit v.items) :=
    funext fun b => write_vector .cleared item limit v b
  rw [hencode, encodedLength, ← itemParts_encodeOver_needs]
  exact splices_writeVector hwf.keepsLength.encodeOver hfills _

/-- A dict whose values fill their slots replaces the front. -/
theorem splices_encode_dict {key value : Layout} {keyLength : Nat} (hkey : key.WellFormed)
    (hlength : key.fixedLength? = some keyLength) (hvalue : value.WellFormed)
    (hfills : ∀ i, Fills (encodeOver value i) (encodedLength value i)) (v : Value) :
    SplicesUpTo (encode (.dict key keyLength value) v)
      (encodedLength (.dict key keyLength value) v) := by
  have hencode : encode (.dict key keyLength value) v
      = writeDict keyLength (putKey key) (encodedLength value) (encodeOver value) v.fields :=
    funext fun b => write_dict .cleared key keyLength value v b
  rw [hencode, encodedLength, ← itemParts_encodeOver_needs, List.length_map]
  exact splices_writeDict hvalue.keepsLength.encodeOver hfills (length_putKey hkey.keepsLength _)
    (putKey_congr hkey hlength) _

/-- Over the defaults of a map, its fixed region does not depend on what there was. -/
theorem fixedBytes_seed (hparts : ∀ f ∈ fields, f.layout.KeepsLength) {b : Bytes}
    (hroom : fixedRegion fields ≤ b.length) :
    fixedBytes .kept fields v (seed (.map fields) b) = writeFixed fields v (template fields) := by
  have htemplate := length_template hparts
  rw [fixedBytes, seed, ← template, overlay_of_le (by omega), Unsupplied.prepare,
    List.take_left' htemplate]

theorem drop_seed_map (hparts : ∀ f ∈ fields, f.layout.KeepsLength) {b : Bytes} {k : Nat}
    (hk : fixedRegion fields ≤ k) (hroom : fixedRegion fields ≤ b.length) :
    (seed (.map fields) b).drop k = b.drop k := by
  have htemplate := length_template hparts
  obtain ⟨more, rfl⟩ := Nat.exists_eq_add_of_le hk
  rw [seed, ← template, overlay_of_le (by omega), ← List.drop_drop, List.drop_left' htemplate,
    List.drop_drop, htemplate]

/-- A map over its defaults fills so many bytes as it needs. -/
theorem fills_encodeOver_map (harranged : Arranged 0 0 fields)
    (hparts : ∀ f ∈ fields, f.layout.KeepsLength)
    (hfills : ∀ part ∈ optionalParts fields v, ∀ p, part = some p → Fills p.put p.need) :
    Fills (encodeOver (.map fields) v) (encodedLength (.map fields) v) := by
  have hroom : dataStart fields ≤ encodedLength (.map fields) v :=
    leastLength_le_encodedLength (.map fields) v
  have hregion := le_trans (fixedRegion_le_dataStart fields) hroom
  have hfixed : (writeFixed fields v (template fields)).length = fixedRegion fields := by
    rw [length_writeFixed hparts, length_template hparts]
  obtain ⟨e, hle, hfull, hwrite⟩ := exists_writeMap harranged hparts hfills hroom hfixed
  have htotal := hfull (le_refl _)
  refine ⟨e, ⟨hle, fun b hb => ?_⟩, htotal⟩
  rw [encodeOver, amend, hwrite .kept (seed (.map fields) b)
    ((keepsLength_map harranged hparts).2 b |>.trans hb) (fixedBytes_seed hparts (by omega)),
    drop_seed_map hparts (by omega) (by omega)]

/-- **Filling.**  Over the defaults of its layout, a value fills so many bytes as it needs. -/
theorem WellFormed.fills (hwf : layout.WellFormed) (hcaps : layout.CapsContents) (v : Value) :
    Fills (encodeOver layout v) (encodedLength layout v) := by
  induction hwf generalizing v with
  | primitive p =>
    rw [encodedLength]
    exact (WellFormed.primitive p).fills_of_fixedLength rfl v
  | text cap => exact fills_encodeOver_content True.intro (le_refl _)
  | blob cap => exact fills_encodeOver_content True.intro (le_refl _)
  | array capacity hitem hstride ih =>
    rw [encodedLength]
    exact (hitem.array capacity hstride).fills_of_fixedLength rfl v
  | packed p capacity =>
    rw [encodedLength]
    exact (WellFormed.packed p capacity).fills_of_fixedLength rfl v
  | @vector item limit hitem ih =>
    have hover : encodeOver (.vector item limit) v = encode (.vector item limit) v := by
      funext b
      rw [encodeOver, amend, seed_of_fixedLength_eq_none rfl rfl, encode, write_vector, write_vector]
    rw [hover]
    exact (splices_encode_vector hitem limit (ih fun fields h => hcaps fields (.vector h)) v).fills
  | @dict key value keyLength hkey hlength hvalue ihkey ihvalue =>
    have hover : encodeOver (.dict key keyLength value) v = encode (.dict key keyLength value) v := by
      funext b
      rw [encodeOver, amend, seed_of_fixedLength_eq_none rfl rfl, encode, write_dict, write_dict]
    rw [hover]
    exact (splices_encode_dict hkey hlength hvalue
      (ihvalue fun fields h => hcaps fields (.value h)) v).fills
  | object hparts harranged hfixed hnames ih =>
    rw [encodedLength]
    exact (WellFormed.object hparts harranged hfixed hnames).fills_of_fixedLength rfl v
  | @map fields hparts harranged hnames ih =>
    apply fills_encodeOver_map harranged fun f hf => (hparts f hf).keepsLength
    exact fills_optionalParts (fun f hf => ih f hf fun inner h => hcaps inner (.map hf h))
      (hcaps fields (.self _))

/-- What a value fills is as long as a new byte string for it. -/
theorem WellFormed.fills_freshLength (hwf : layout.WellFormed) (hcaps : layout.CapsContents)
    (v : Value) : Fills (encodeOver layout v) (freshLength layout v) := by
  cases hlayout : layout.fixedLength? with
  | none =>
    rw [freshLength, hlayout, Option.getD_none]
    exact hwf.fills hcaps v
  | some n =>
    rw [freshLength, hlayout, Option.getD_some]
    exact hwf.fills_of_fixedLength hlayout v

/-- A value that is written with zeros for what it does not supply replaces the front. -/
theorem WellFormed.splices_encode (hwf : layout.WellFormed) (hcaps : layout.CapsContents)
    (v : Value) : SplicesUpTo (encode layout v) (freshLength layout v) := by
  by_cases htable : layout.IsTable
  · rw [freshLength_of_isTable htable]
    cases hwf with
    | @vector item limit hitem =>
      exact splices_encode_vector hitem limit
        (hitem.fills fun fields h => hcaps fields (.vector h)) v
    | @dict key value keyLength hkey hlength hvalue =>
      exact splices_encode_dict hkey hlength hvalue
        (hvalue.fills fun fields h => hcaps fields (.value h)) v
    | @map fields hparts harranged hnames =>
      intro n
      rcases Nat.lt_or_ge n (dataStart fields) with hshort | hroom
      · have hle := leastLength_le_encodedLength (.map fields) v
        rw [leastLength] at hle
        refine ⟨[], splices_nothing fun b hb => ?_, fun htotal => absurd htotal (by omega)⟩
        exact write_of_lt (by rw [leastLength]; omega)
      · have hregion := le_trans (fixedRegion_le_dataStart fields) hroom
        have hkeep : ∀ f ∈ fields, f.layout.KeepsLength := fun f hf => (hparts f hf).keepsLength
        have hfixed : (writeFixed fields v (zeros (fixedRegion fields))).length
            = fixedRegion fields := by
          rw [length_writeFixed hkeep, length_zeros]
        have hfills := fills_optionalParts (v := v)
          (fun f hf => (hparts f hf).fills fun inner h => hcaps inner (.map hf h))
          (hcaps fields (.self _))
        obtain ⟨e, hle, hfull, hwrite⟩ := exists_writeMap harranged hkeep hfills hroom hfixed
        refine ⟨e, ⟨hle, fun b hb => hwrite .cleared b hb ?_⟩, hfull⟩
        rw [fixedBytes, Unsupplied.prepare, List.length_take, Nat.min_eq_left (by omega)]
    | _ => exact htable.elim
  · exact splices_encode_of_not_isTable hwf htable v

/-- Over the defaults of its layout, a value that has room for all of it replaces the front. -/
theorem WellFormed.splices_encodeOver (hwf : layout.WellFormed) (hcaps : layout.CapsContents)
    (v : Value) (hroom : freshLength layout v ≤ n) :
    ∃ e, Splices (encodeOver layout v) n e ∧ e.length = freshLength layout v := by
  obtain ⟨e, hlength, hput⟩ := (hwf.fills_freshLength hcaps v).exists_eq
  refine ⟨e, ⟨by omega, fun b hb => ?_⟩, hlength⟩
  -- more room changes nothing
  have hfront : (b.take (freshLength layout v)).length = freshLength layout v := by
    rw [List.length_take, Nat.min_eq_left (by omega)]
  conv_lhs => rw [← List.take_append_drop (freshLength layout v) b]
  rw [encodeOver_append_of_le hwf (le_of_eq hfront.symm), hput _ hfront, hlength]

/-- **Splicing.**  A value of a layout that cuts off only texts and blobs replaces the front of every
byte string of `n` bytes by the same bytes, and keeps the rest: with zeros for what it does not
supply for any `n`, and over the defaults of the layout where there is room for it. -/
theorem encode_splices (hlayout : layout.IsCompiled) (hcaps : layout.CapsContents) (v : Value)
    (n : Nat) : (∃ e, Splices (encode layout v) n e)
      ∧ (freshLength layout v ≤ n → ∃ e, Splices (encodeOver layout v) n e) := by
  constructor
  · obtain ⟨e, he, -⟩ := hlayout.wellFormed.splices_encode hcaps v n
    exact ⟨e, he⟩
  · intro hroom
    obtain ⟨e, he, -⟩ := hlayout.wellFormed.splices_encodeOver hcaps v hroom
    exact ⟨e, he⟩

/-- Of a list of two, the name of the first is cut off and the second is a hole. -/
theorem encode_splices_shortNick :
    let nicks : Layout := .vector (.map [⟨"nick", .text (some 3), .optional 0, none, some 3⟩]) none
    let v : Value := .list [.record [("nick", .text "Magellan")], .null]
    (∃ e, Splices (encode nicks v) 20 e)
      ∧ ∃ e, Splices (encodeOver nicks v) 32 e ∧ e.length = 27 := by
  intro nicks v
  have hnicks : nicks.IsCompiled := .of_eval ⟨0⟩ (.object
    [("type", .text "array"), ("btype", .text "vector"), ("items", .object
      [("type", .text "object"), ("btype", .text "map"), ("properties", .object [("nick", .object
        [("type", .text "string"), ("maxLength", .number (.natural 3))])])])]) (by cbv)
  have hcaps : nicks.CapsContents := by
    refine (CapsContents.map ?_ ?_).vector none
    · simp only [List.forall_mem_singleton]
      exact capsContents_text _
    · simp only [List.forall_mem_singleton]
      exact fun _ _ => True.intro
  refine ⟨(encode_splices hnicks hcaps v 20).1, ?_⟩
  obtain ⟨e, he⟩ := (encode_splices hnicks hcaps v 32).2 (by decide)
  refine ⟨e, he, ?_⟩
  have hzeros := congrArg Written.length (he.2 (zeros 32) (length_zeros 32))
  exact hzeros.symm.trans (by decide +kernel)

end Layout

end BinarySchema
