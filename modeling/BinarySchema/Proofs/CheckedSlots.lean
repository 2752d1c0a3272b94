/-
# Runs of items never fault

The parts of writing that do not depend on what the items are, built from operations that can fault:
runs of slots, parts behind one another, vectors and dicts.  The bytes are rewritten in place, slot
by slot, and a table shrinks by one entry at a time.

Where one item is written without a fault, so is the run of them, and the bytes are those that the
library writes (`writeSlots_ok`, `writeParts_ok`, `writeVector_ok`, `writeDict_ok`).
-/
import BinarySchema.Proofs.Faults
import BinarySchema.Proofs.Placing

namespace BinarySchema

namespace Layout

namespace Checked

open BinarySchema.Checked

/-! ## Runs of slots -/

/-- The number of whole slots of `stride` bytes that a byte string holds, up to `capacity`. -/
def slotCount (stride capacity : Nat) (b : Bytes) : Checked Nat :=
  if stride = 0 then .ok capacity else do return min capacity (← divide b.length stride)

theorem slotCount_ok (stride capacity : Nat) (b : Bytes) :
    slotCount stride capacity b = .ok (Layout.slotCount stride capacity b) := by
  rw [slotCount, Layout.slotCount]
  split_ifs with hstride
  · rfl
  · rw [divide_ok hstride]
    rfl

/-- Rewrites the slot of `stride` bytes at `start` in place, if there is a program for it. -/
def writeSlot (start stride : Nat) (put : Option (Bytes → Checked Written)) (b : Bytes) :
    Checked Bytes :=
  match put with
  | none => .ok b
  | some put => do
    let w ← onSlice b start (start + stride) put
    return w.bytes

/-- Rewrites slots in place, the one with number `i` at `offset i`: one for each element of a list,
by the program for that element. -/
def writeSlots {α : Type} (offset : Nat → Nat) (stride : Nat)
    (put : α → Option (Bytes → Checked Written)) : List α → (i : Nat) → Bytes → Checked Bytes
  | [], _, b => .ok b
  | x :: xs, i, b => do
    let b ← writeSlot (offset i) stride (put x) b
    writeSlots offset stride put xs (i + 1) b

/-- A program makes of a slot what a function makes of it.  Where there is no program, the function
leaves the slot as it is. -/
def Rewrites (put : Option (Bytes → Checked Written)) (f : Bytes → Bytes) (slot : Bytes) : Prop :=
  (f slot).length = slot.length
    ∧ match put with
      | none => f slot = slot
      | some put => ∃ n, put slot = .ok ⟨f slot, n⟩

theorem writeSlot_ok {put : Option (Bytes → Checked Written)} {f : Bytes → Bytes}
    {a m c : Bytes} {start stride : Nat} (hstart : a.length = start) (hm : m.length = stride)
    (hput : Rewrites put f m) : writeSlot start stride put (a ++ m ++ c) = .ok (a ++ f m ++ c) := by
  obtain ⟨-, hput⟩ := hput
  cases put with
  | none =>
    dsimp only at hput
    rw [writeSlot, hput]
  | some put =>
    obtain ⟨n, hn⟩ := hput
    rw [writeSlot, onSlice_middle hstart (by rw [hm]) hn]
    rfl

/-- The slots of a run lie behind one another, and each is rewritten. -/
theorem writeSlots_ok {α : Type} {put : α → Option (Bytes → Checked Written)}
    {f : α → Bytes → Bytes} {xs : List α} {offset : Nat → Nat} {base stride i : Nat} {a b : Bytes}
    (hput : ∀ x ∈ xs, ∀ slot : Bytes, slot.length = stride → Rewrites (put x) (f x) slot)
    (hoffset : ∀ j, j < i + xs.length → offset j = base + j * stride)
    (ha : a.length = base + i * stride) (hroom : xs.length * stride ≤ b.length) :
    writeSlots offset stride put xs i (a ++ b) = .ok (a ++ onSlots stride (xs.map f) b) := by
  induction xs generalizing i a b with
  | nil => rfl
  | cons x xs ih =>
    rw [List.length_cons, Nat.succ_mul] at hroom
    have hslot : (b.take stride).length = stride := by
      rw [List.length_take]
      omega
    have hx := hput x List.mem_cons_self _ hslot
    have hi : offset i = base + i * stride := by
      apply hoffset
      rw [List.length_cons]
      omega
    have hone := writeSlot_ok (c := b.drop stride) ha hslot hx
    rw [List.append_assoc, List.take_append_drop] at hone
    rw [writeSlots, hi, hone, ok_bind, ih, List.map_cons, onSlots, List.append_assoc]
    · exact fun y hy => hput y (List.mem_cons_of_mem _ hy)
    · intro j hj
      apply hoffset
      rw [List.length_cons]
      omega
    · rw [List.length_append, ha, hx.1, hslot, Nat.succ_mul]
      omega
    · rw [List.length_drop]
      omega

/-- The same for slots that begin with the byte string. -/
theorem writeSlots_front {α : Type} {put : α → Option (Bytes → Checked Written)}
    {f : α → Bytes → Bytes} {xs : List α} {offset : Nat → Nat} {stride : Nat} {b : Bytes}
    (hput : ∀ x ∈ xs, ∀ slot : Bytes, slot.length = stride → Rewrites (put x) (f x) slot)
    (hoffset : ∀ j, j < xs.length → offset j = j * stride) (hroom : xs.length * stride ≤ b.length) :
    writeSlots offset stride put xs 0 b = .ok (onSlots stride (xs.map f) b) := by
  have hoffset' : ∀ j, j < 0 + xs.length → offset j = 0 + j * stride := by
    intro j hj
    rw [hoffset j (by omega), Nat.zero_add]
  have ha : ([] : Bytes).length = 0 + 0 * stride := by rw [List.length_nil, Nat.zero_mul]
  exact writeSlots_ok hput hoffset' ha hroom

/-! ## Parts behind one another -/

/-- A part of a value that is yet to be written. -/
structure Portion where
  /-- The number of bytes that the part asks for. -/
  need : Nat
  /-- Writes the part to the front of a slot. -/
  put : Bytes → Checked Written

/-- Writes a part behind what has been written, if it fits there. -/
def writePart (part : Option Portion) (w : Written) : Checked Written :=
  match part with
  | none => .ok w
  | some p =>
    let span : Span := ⟨w.length, p.need⟩
    if span.Fits w.bytes then do
      let x ← onSlice w.bytes span.start span.stop p.put
      return ⟨x.bytes, w.length + x.length⟩
    else .ok w

/-- Writes parts one after the other, and the end of each to the offset that comes with it. -/
def writeParts : List (Nat × Checked (Option Portion)) → Written → Checked Written
  | [], w => .ok w
  | (entry, part) :: rest, w => do
    let w ← writePart (← part) w
    let b ← storeWord w.length w.bytes entry
    writeParts rest ⟨b, w.length⟩

/-- The portion of a part that is written without a fault. -/
def Portion.ofPart (p : Part) : Portion := ⟨p.need, fun slot => .ok (p.put slot)⟩

theorem writePart_ok (part : Option Part) (w : Written) :
    writePart (part.map Portion.ofPart) w = .ok (putInto part w) := by
  cases part with
  | none => rfl
  | some p =>
    rw [Option.map_some]
    by_cases hfits : (⟨w.length, p.need⟩ : Span).Fits w.bytes
    · have hwrite : writePart (some (Portion.ofPart p)) w
          = onSlice w.bytes w.length (w.length + p.need) (Portion.ofPart p).put >>= fun x =>
            .ok ⟨x.bytes, w.length + x.length⟩ := if_pos hfits
      have honSlice := onSlice_ok (f := (Portion.ofPart p).put) hfits rfl
      rw [Span.stop] at honSlice
      rw [hwrite, honSlice, ok_bind, putInto, if_pos hfits]
    · rw [putInto, if_neg hfits]
      exact if_neg hfits

/-- Parts that are each written without a fault are written in place without one. -/
theorem writeParts_ok (entries : List (Nat × Option Part)) (w : Written) :
    writeParts (entries.map fun e => (e.1, .ok (e.2.map Portion.ofPart))) w
      = .ok (placeInto entries w) := by
  induction entries generalizing w with
  | nil => rfl
  | cons e rest ih =>
    rw [List.map_cons, writeParts, ok_bind, writePart_ok, ok_bind, storeWord_ok, ok_bind, ih,
      placeInto]

/-! ## Vectors and dicts -/

section Containers

variable (size : Value → Checked Nat) (put : Value → Bytes → Checked Written)

/-- The part for an item of a vector. -/
def itemPortion (v : Value) : Checked (Option Portion) :=
  if v.isNull then .ok none else do return some ⟨← size v, put v⟩

/-- Writes a vector. -/
def writeVector (items : List Value) (b : Bytes) : Checked Written :=
  if b.length < headerLength 0 then .ok (.nothing b)
  else do
    let count ← shrink (fun n => headerLength n ≤ b.length) items.length
    let b ← storeWord count b 0
    let b ← storeWord (headerLength count) b (entryOffset 0)
    writeParts (withEntries Word.width 1 ((items.take count).map (itemPortion size put)))
      ⟨b, headerLength count⟩

/-- Writes the keys of a dict behind its values, and in front of them the word that says where they
begin. -/
def writeKeys (keyLength : Nat) (putKey : String → Bytes → Checked Written)
    (fields : List (String × Value)) (values : Written) : Checked Written := do
  let keysOffset := values.length + Word.width
  let b ← storeWord keysOffset values.bytes values.length
  let offset (i : Nat) : Nat := keysOffset + i * keyLength
  let b ← writeSlots offset keyLength (fun f => some (putKey f.1)) fields 0 b
  return ⟨b, keysOffset + fields.length * keyLength⟩

/-- Writes a dict. -/
def writeDict (keyLength : Nat) (putKey : String → Bytes → Checked Written)
    (fields : List (String × Value)) (b : Bytes) : Checked Written :=
  if b.length < dictOverhead keyLength 0 then .ok (.nothing b)
  else do
    let count ← shrink (fun n => dictOverhead keyLength n ≤ b.length) fields.length
    let fields := fields.take count
    let room ← subtract (← subtract b.length Word.width) (count * keyLength)
    let values ← onSlice b 0 room (writeVector size put (fields.map (·.2)))
    writeKeys keyLength putKey fields values

end Containers

variable {put : Value → Bytes → Written}

theorem map_itemPortion (size : Value → Nat) (put : Value → Bytes → Written) (items : List Value) :
    items.map (itemPortion (fun v => .ok (size v)) fun v slot => .ok (put v slot))
      = (itemParts size put items).map fun p => .ok (p.map Portion.ofPart) := by
  rw [itemParts, List.map_map]
  apply List.map_congr_left
  intro v _
  rw [itemPortion, Function.comp_apply]
  split_ifs <;> rfl

/-- The header of a vector has a word for the count, one for the start of the items, and the table
of their ends, which is yet to be filled in. -/
theorem exists_store_header {count : Nat} {b : Bytes} (hroom : headerLength count ≤ b.length) :
    ∃ table : Bytes, table.length = count * Word.width
      ∧ Word.store (headerLength count) (Word.store count b 0) (entryOffset 0)
        = (Word.toBytes (Word.ofLength count) ++ Word.toBytes (Word.ofLength (headerLength count)))
          ++ table ++ [] ++ b.drop (headerLength count) := by
  have hlength : headerLength count = Word.width + Word.width + count * Word.width := by
    unfold headerLength
    ring
  have hcount : (Word.toBytes (Word.ofLength count)).length = Word.width := Word.length_toBytes _
  have hentry : (Word.toBytes (Word.ofLength count)).length = entryOffset 0 := by
    rw [hcount, entryOffset, Nat.zero_mul, Nat.add_zero]
  have hfirst : Word.store count b 0
      = Word.toBytes (Word.ofLength count) ++ b.drop Word.width := by
    rw [Word.store_of_fits (by omega), Span.splice, Span.stop, List.take_zero, List.nil_append,
      Nat.zero_add]
  have hmiddle : ((b.drop Word.width).take Word.width).length = Word.width := by
    rw [List.length_take, List.length_drop]
    omega
  have hsecond := Word.store_middle (c := (b.drop Word.width).drop Word.width)
    (n := headerLength count) hentry hmiddle
  rw [List.append_assoc, List.take_append_drop, List.drop_drop] at hsecond
  refine ⟨(b.drop (Word.width + Word.width)).take (count * Word.width), ?_, ?_⟩
  · rw [List.length_take, List.length_drop]
    omega
  · have hrest : b.drop (headerLength count)
        = (b.drop (Word.width + Word.width)).drop (count * Word.width) := by
      rw [List.drop_drop, hlength]
    rw [hfirst, hsecond, hrest, List.append_nil, List.append_assoc _ (List.take _ _),
      List.take_append_drop]

/-- **Vectors.**  A vector whose items are written without a fault is written without one. -/
theorem writeVector_ok (size : Value → Nat) (hput : ∀ v, Keeps (put v)) (items : List Value)
    (b : Bytes) :
    writeVector (fun v => .ok (size v)) (fun v slot => .ok (put v slot)) items b
      = .ok (Layout.writeVector size put items b) := by
  by_cases hroom : b.length < headerLength 0
  · rw [writeVector, Layout.writeVector, if_pos hroom, if_pos hroom]
  · obtain ⟨count, hcount⟩ : ∃ count, vectorCount items.length b.length = count := ⟨_, rfl⟩
    have hheader := headerLength_vectorCount_le items.length (le_of_not_gt hroom)
    have hle := vectorCount_le items.length b.length
    rw [hcount] at hheader hle
    have hshrink : shrink (fun n => headerLength n ≤ b.length) items.length = .ok count := by
      apply shrink_ok hle (decide_eq_true hheader)
      intro n hn hnle
      rw [decide_eq_true_eq, Nat.not_le]
      rw [← hcount] at hn
      exact room_lt_headerLength b.length hn hnle
    have hkeep := allKeep_itemParts hput size (items.take count)
    have hparts : (itemParts size put (items.take count)).length = count := by
      rw [length_itemParts, List.length_take, Nat.min_eq_left hle]
    obtain ⟨table, htable, hheaderStored⟩ := exists_store_header hheader
    rw [writeVector, if_neg hroom, hshrink, ok_bind, storeWord_ok, ok_bind, storeWord_ok, ok_bind,
      map_itemPortion, withEntries_map, writeParts_ok, hheaderStored, placeInto_eq hkeep,
      writeVector_eq count (le_of_not_gt hroom) hcount hkeep rfl]
    · rw [length_vectorImage, vectorImage, length_place_fst, hparts, words_cons, words_cons]
      simp only [List.append_assoc, List.nil_append]
    · rw [List.length_append, Word.length_toBytes, Word.length_toBytes, Nat.one_mul]
    · rw [hparts, htable]
    · rw [List.append_nil, List.length_append, List.length_append, Word.length_toBytes,
        Word.length_toBytes, htable, headerLength]
      ring

theorem writeKeys_ok {keyLength : Nat} {putKey : String → Bytes → Written}
    (hkeys : ∀ name, Keeps (putKey name)) {fields : List (String × Value)} {values : Written}
    (hroom : values.length + Word.width + fields.length * keyLength ≤ values.bytes.length) :
    writeKeys keyLength (fun name slot => .ok (putKey name slot)) fields values
      = .ok ⟨values.value ++ Word.toBytes (Word.ofLength (values.length + Word.width))
          ++ onSlots keyLength (fields.map fun f slot => (putKey f.1 slot).bytes)
            (values.bytes.drop (values.length + Word.width)),
        values.length + Word.width + fields.length * keyLength⟩ := by
  have hlength := Written.length_value (w := values) (by omega)
  have hstore : Word.store (values.length + Word.width) values.bytes values.length
      = values.value ++ Word.toBytes (Word.ofLength (values.length + Word.width))
        ++ values.bytes.drop (values.length + Word.width) :=
    Word.store_of_fits (by omega)
  have hslots : writeSlots (fun i => values.length + Word.width + i * keyLength) keyLength
      (fun f => some fun slot => .ok (putKey f.1 slot)) fields 0
      (values.value ++ Word.toBytes (Word.ofLength (values.length + Word.width))
        ++ values.bytes.drop (values.length + Word.width))
      = .ok (values.value ++ Word.toBytes (Word.ofLength (values.length + Word.width))
        ++ onSlots keyLength (fields.map fun f slot => (putKey f.1 slot).bytes)
          (values.bytes.drop (values.length + Word.width))) := by
    refine writeSlots_ok ?_ (fun _ _ => rfl) ?_ ?_
    · exact fun f _ slot _ => ⟨(hkeys f.1 slot).1, _, rfl⟩
    · rw [List.length_append, hlength, Word.length_toBytes, Nat.zero_mul, Nat.add_zero]
    · rw [List.length_drop]
      omega
  rw [writeKeys, storeWord_ok, hstore]
  dsimp only
  rw [ok_bind, hslots]
  rfl

/-- **Dicts.**  A dict whose keys and values are written without a fault is written without one. -/
theorem writeDict_ok (size : Value → Nat) (hput : ∀ v, Keeps (put v)) {keyLength : Nat}
    {putKey : String → Bytes → Written} (hkeys : ∀ name, Keeps (putKey name))
    (fields : List (String × Value)) (b : Bytes) :
    writeDict (fun v => .ok (size v)) (fun v slot => .ok (put v slot)) keyLength
        (fun name slot => .ok (putKey name slot)) fields b
      = .ok (Layout.writeDict keyLength (fun name slot => (putKey name slot).bytes) size put fields
        b) := by
  by_cases hroom : b.length < dictOverhead keyLength 0
  · rw [writeDict, Layout.writeDict, if_pos hroom, if_pos hroom]
  · obtain ⟨count, hcount⟩ : ∃ count, dictCount keyLength fields.length b.length = count := ⟨_, rfl⟩
    have hoverhead := dictOverhead_dictCount_le fields.length (le_of_not_gt hroom)
    have hle := dictCount_le keyLength fields.length b.length
    rw [hcount] at hoverhead hle
    have hshrink : shrink (fun n => dictOverhead keyLength n ≤ b.length) fields.length
        = .ok count := by
      apply shrink_ok hle (decide_eq_true hoverhead)
      intro n hn hnle
      rw [decide_eq_true_eq, Nat.not_le]
      rw [← hcount] at hn
      exact room_lt_dictOverhead (le_of_not_gt hroom) hn hnle
    -- the word and the keys are taken from the end, and the rest is left to the values
    rw [dictOverhead] at hoverhead
    obtain ⟨room, hroomEq⟩ : ∃ room, b.length - Word.width - count * keyLength = room := ⟨_, rfl⟩
    have htake : (b.take room).length = room := by
      rw [List.length_take]
      omega
    have hkeep := keeps_writeVector size hput ((fields.take count).map (·.2)) (b.take room)
    have honSlice := onSlice_front (b := b) (n := room) (by omega)
      (writeVector_ok size hput ((fields.take count).map (·.2)) (b.take room))
    rw [writeDict, if_neg hroom, hshrink, ok_bind, subtract_ok (by omega), ok_bind,
      subtract_ok (by omega), ok_bind, hroomEq, honSlice, ok_bind, Layout.writeDict, if_neg hroom,
      hcount]
    dsimp only
    rw [hroomEq]
    generalize Layout.writeVector size put ((fields.take count).map (·.2)) (b.take room) = values
      at hkeep ⊢
    obtain ⟨hbytes, hlength⟩ := hkeep
    have hcountLength : (fields.take count).length = count := by
      rw [List.length_take, Nat.min_eq_left hle]
    have hvalues : values.length ≤ values.bytes.length := le_trans hlength (le_of_eq hbytes.symm)
    have hvalue : Written.value ⟨values.bytes ++ b.drop room, values.length⟩ = values.value :=
      List.take_append_of_le_length hvalues
    rw [writeKeys_ok hkeys, hcountLength, hvalue]
    dsimp only
    rw [hcountLength, List.length_append, List.length_drop]
    omega

end Checked

end Layout

end BinarySchema
