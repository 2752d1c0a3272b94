/-
# Placing parts

Vectors, dicts and maps put their parts one after the other into the room that is left, and leave a
hole for each part that does not fit.  `place` is that process by itself: a `Part` says how many
bytes it asks for and how it is written to that many, and the bytes it did not use are left to the
next one.

* `length_place` : nothing is lost, the chunks and what is left make up the room;
* `place_spec` : each chunk is a hole or was written to a slot of the size asked for;
* `place_full` : where there is room for all, no part is left out;
* `place_append` : then more room changes nothing.

`writeVector_eq` and `writeDict_eq` say that the writers make images of what is placed.
-/
import BinarySchema.Proofs.Image

namespace BinarySchema

/-- A part of a value that is yet to be placed. -/
structure Part where
  /-- The number of bytes that the part asks for. -/
  need : Nat
  /-- Writes the part to the front of a slot. -/
  put : Bytes → Written

/-- Writing keeps the length of its slot and takes no more than that. -/
def Keeps (put : Bytes → Written) : Prop :=
  ∀ slot, (put slot).bytes.length = slot.length ∧ (put slot).length ≤ slot.length

theorem Written.length_value {w : Written} (h : w.length ≤ w.bytes.length) :
    w.value.length = w.length := by
  rw [value, List.length_take, Nat.min_eq_left h]

theorem Written.value_append (image rest : Bytes) :
    Written.value ⟨image ++ rest, image.length⟩ = image := List.take_left

theorem Written.value_append_drop (w : Written) : w.value ++ w.bytes.drop w.length = w.bytes :=
  List.take_append_drop _ _

namespace Layout

/-- Every part that is not a hole keeps to its slot. -/
def AllKeep (parts : List (Option Part)) : Prop := ∀ part ∈ parts, ∀ p, part = some p → Keeps p.put

/-- Places one part: the chunk it becomes, and what it leaves of the room. -/
def placeOne (part : Option Part) (b : Bytes) : Bytes × Bytes :=
  match part with
  | none => ([], b)
  | some p =>
    if p.need ≤ b.length then
      let w := p.put (b.take p.need)
      (w.value, w.bytes.drop w.length ++ b.drop p.need)
    else ([], b)

/-- Places parts one after the other: the chunks that they become, and what is left. -/
def place : List (Option Part) → Bytes → List Bytes × Bytes
  | [], b => ([], b)
  | part :: parts, b =>
    let first := placeOne part b
    let others := place parts first.2
    (first.1 :: others.1, others.2)

/-- The number of bytes that a part asks for, none for a hole. -/
def need (part : Option Part) : Nat := part.elim 0 Part.need

/-- The number of bytes that parts ask for. -/
def needs (parts : List (Option Part)) : Nat := (parts.map need).sum

variable {part : Option Part} {parts : List (Option Part)} {b : Bytes}

theorem needs_cons (part : Option Part) (parts : List (Option Part)) :
    needs (part :: parts) = need part + needs parts := by
  rw [needs, needs, List.map_cons, List.sum_cons]

theorem need_some (p : Part) : need (some p) = p.need := rfl

/-! ## One part -/

theorem placeOne_none (b : Bytes) : placeOne none b = ([], b) := rfl

theorem placeOne_of_le {p : Part} (h : p.need ≤ b.length) :
    placeOne (some p) b = ((p.put (b.take p.need)).value,
      (p.put (b.take p.need)).bytes.drop (p.put (b.take p.need)).length ++ b.drop p.need) := by
  unfold placeOne
  dsimp only
  rw [if_pos h]

theorem placeOne_of_lt {p : Part} (h : b.length < p.need) : placeOne (some p) b = ([], b) := by
  unfold placeOne
  dsimp only
  rw [if_neg (by omega)]

/-- A part that is placed divides the room, and uses no more than it asks for. -/
theorem length_placeOne (hkeep : ∀ p, part = some p → Keeps p.put) (b : Bytes) :
    (placeOne part b).1.length + (placeOne part b).2.length = b.length
      ∧ (placeOne part b).1.length ≤ need part := by
  cases part with
  | none =>
    exact ⟨Nat.zero_add _, Nat.zero_le _⟩
  | some p =>
    rw [need_some]
    rcases le_or_gt p.need b.length with hfits | hlong
    · have hslot : (b.take p.need).length = p.need := by
        rw [List.length_take, Nat.min_eq_left hfits]
      -- what the part takes of its slot is its chunk, and the rest of the slot is left over
      obtain ⟨hbytes, hlength⟩ := hkeep p rfl (b.take p.need)
      rw [placeOne_of_le hfits, Written.length_value (by omega), List.length_append,
        List.length_drop, List.length_drop, hbytes]
      omega
    · rw [placeOne_of_lt hlong]
      exact ⟨Nat.zero_add _, Nat.zero_le _⟩

/-- What a chunk is: a hole, or what a part writes to a slot of the size that it asks for. -/
def IsChunk (part : Option Part) (chunk : Bytes) : Prop :=
  chunk = [] ∨ ∃ p slot, part = some p ∧ slot.length = p.need ∧ chunk = (p.put slot).value

/-- What a chunk is where nothing is left out. -/
def IsFullChunk (part : Option Part) (chunk : Bytes) : Prop :=
  match part with
  | none => chunk = []
  | some p => ∃ slot, slot.length = p.need ∧ chunk = (p.put slot).value

theorem placeOne_spec (part : Option Part) (b : Bytes) : IsChunk part (placeOne part b).1 := by
  cases part with
  | none => exact Or.inl rfl
  | some p =>
    rcases le_or_gt p.need b.length with hfits | hlong
    · rw [placeOne_of_le hfits]
      refine Or.inr ⟨p, b.take p.need, rfl, ?_, rfl⟩
      rw [List.length_take, Nat.min_eq_left hfits]
    · rw [placeOne_of_lt hlong]
      exact Or.inl rfl

theorem placeOne_full (h : need part ≤ b.length) : IsFullChunk part (placeOne part b).1 := by
  cases part with
  | none => rfl
  | some p =>
    rw [need_some] at h
    rw [placeOne_of_le h]
    refine ⟨b.take p.need, ?_, rfl⟩
    rw [List.length_take, Nat.min_eq_left h]

theorem placeOne_append (h : need part ≤ b.length) (c : Bytes) :
    placeOne part (b ++ c) = ((placeOne part b).1, (placeOne part b).2 ++ c) := by
  cases part with
  | none => rfl
  | some p =>
    rw [need_some] at h
    rw [placeOne_of_le h, placeOne_of_le (by rw [List.length_append]; omega),
      List.take_append_of_le_length h, List.drop_append_of_le_length h, List.append_assoc]

/-! ## All parts -/

theorem AllKeep.head (h : AllKeep (part :: parts)) : ∀ p, part = some p → Keeps p.put :=
  h part List.mem_cons_self

theorem AllKeep.tail (h : AllKeep (part :: parts)) : AllKeep parts :=
  fun part' hpart => h part' (List.mem_cons_of_mem _ hpart)

/-- The chunks and what is left make up the room. -/
theorem length_place (hkeep : AllKeep parts) (b : Bytes) :
    (place parts b).1.flatten.length + (place parts b).2.length = b.length := by
  induction parts generalizing b with
  | nil => rw [place, List.flatten_nil, List.length_nil, Nat.zero_add]
  | cons part parts ih =>
    have hfirst := (length_placeOne hkeep.head b).1
    have hothers := ih hkeep.tail (placeOne part b).2
    rw [place]
    dsimp only
    rw [List.flatten_cons, List.length_append]
    omega

@[simp] theorem length_place_fst (parts : List (Option Part)) (b : Bytes) :
    (place parts b).1.length = parts.length := by
  induction parts generalizing b with
  | nil => rfl
  | cons part parts ih =>
    rw [place]
    dsimp only
    rw [List.length_cons, ih, List.length_cons]

/-- Each chunk is a hole or was written to a slot of the size that its part asks for. -/
theorem place_spec (parts : List (Option Part)) (b : Bytes) :
    List.Forall₂ IsChunk parts (place parts b).1 := by
  induction parts generalizing b with
  | nil => exact List.Forall₂.nil
  | cons part parts ih => exact List.Forall₂.cons (placeOne_spec part b) (ih _)

/-- Where there is room for all parts, none is left out. -/
theorem place_full (hkeep : AllKeep parts) (h : needs parts ≤ b.length) :
    List.Forall₂ IsFullChunk parts (place parts b).1 := by
  induction parts generalizing b with
  | nil => exact List.Forall₂.nil
  | cons part parts ih =>
    rw [needs_cons] at h
    have hleft := length_placeOne hkeep.head b
    exact List.Forall₂.cons (placeOne_full (by omega)) (ih hkeep.tail (by omega))

/-- So each of those that the parts belong to has its chunk. -/
theorem place_map_full {α : Type} {part : α → Option Part} {xs : List α}
    (hkeep : AllKeep (xs.map part)) (h : needs (xs.map part) ≤ b.length) :
    List.Forall₂ (fun x chunk => x ∈ xs ∧ IsFullChunk (part x) chunk) xs
      (place (xs.map part) b).1 := by
  have hfull := place_full hkeep h
  rw [List.forall₂_map_left_iff] at hfull
  exact (List.forall₂_and_left (p := fun x => x ∈ xs)
    (R := fun x chunk => IsFullChunk (part x) chunk) xs _).mpr ⟨fun _ hx => hx, hfull⟩

/-- Where there is room for all parts, more room changes nothing. -/
theorem place_append (hkeep : AllKeep parts) (h : needs parts ≤ b.length) (c : Bytes) :
    place parts (b ++ c) = ((place parts b).1, (place parts b).2 ++ c) := by
  induction parts generalizing b with
  | nil => rfl
  | cons part parts ih =>
    rw [needs_cons] at h
    have hleft := length_placeOne hkeep.head b
    rw [place, placeOne_append (by omega)]
    dsimp only
    rw [ih hkeep.tail (by omega)]
    rfl

/-! ## In place -/

/-- Puts a part behind what has been written, if it fits there. -/
def putInto (part : Option Part) (w : Written) : Written :=
  match part with
  | none => w
  | some p =>
    let span : Span := ⟨w.length, p.need⟩
    if span.Fits w.bytes then
      let x := p.put (span.slice w.bytes)
      ⟨span.splice w.bytes x.bytes, w.length + x.length⟩
    else w

/-- Puts parts behind what has been written, one after the other, and stores the end of each at the
offset that comes with it. -/
def placeInto : List (Nat × Option Part) → Written → Written
  | [], w => w
  | (entry, part) :: rest, w =>
    let w := putInto part w
    placeInto rest ⟨Word.store w.length w.bytes entry, w.length⟩

/-- The elements of a list with the offsets of their entries in the table at `table`, the first of
which is the entry with the given number. -/
def withEntries {α : Type} (table : Nat) : Nat → List α → List (Nat × α)
  | _, [] => []
  | i, x :: xs => (table + i * Word.width, x) :: withEntries table (i + 1) xs

theorem withEntries_map {α β : Type} (g : α → β) (table i : Nat) (xs : List α) :
    withEntries table i (xs.map g) = (withEntries table i xs).map fun e => (e.1, g e.2) := by
  induction xs generalizing i with
  | nil => rfl
  | cons x xs ih => rw [List.map_cons, withEntries, ih, withEntries, List.map_cons]

/-- Putting a part behind what has been written places it there. -/
theorem putInto_eq (hkeep : ∀ p, part = some p → Keeps p.put) {front : Bytes} {length : Nat}
    (hlength : front.length = length) (b : Bytes) :
    putInto part ⟨front ++ b, length⟩ = ⟨front ++ (placeOne part b).1 ++ (placeOne part b).2,
      length + (placeOne part b).1.length⟩ := by
  cases part with
  | none => rw [putInto, placeOne_none, List.append_nil, List.length_nil, Nat.add_zero]
  | some p =>
    rw [putInto]
    dsimp only
    rcases le_or_gt p.need b.length with hfits | hlong
    · have hspan : (⟨length, p.need⟩ : Span).Fits (front ++ b) := by
        simp only [Span.Fits, Span.stop, List.length_append]
        omega
      have htake : (b.take p.need).length = p.need := by
        rw [List.length_take, Nat.min_eq_left hfits]
      have hsplit : front ++ b = front ++ b.take p.need ++ b.drop p.need := by
        rw [List.append_assoc, List.take_append_drop]
      have hslice : (⟨length, p.need⟩ : Span).slice (front ++ b) = b.take p.need := by
        rw [hsplit]
        exact Span.slice_middle hlength htake
      have hsplice : ∀ new, (⟨length, p.need⟩ : Span).splice (front ++ b) new
          = front ++ new ++ b.drop p.need := by
        intro new
        rw [hsplit]
        exact Span.splice_middle hlength htake
      obtain ⟨hbytes, hle⟩ := hkeep p rfl (b.take p.need)
      -- what the part takes and what it leaves of its slot make up the slot
      have hjoin : ∀ w : Written, w.value ++ (w.bytes.drop w.length ++ b.drop p.need)
          = w.bytes ++ b.drop p.need := by
        intro w
        rw [← List.append_assoc, Written.value_append_drop]
      rw [if_pos hspan, hslice, hsplice, placeOne_of_le hfits]
      dsimp only
      rw [Written.length_value (by omega), List.append_assoc front, List.append_assoc front, hjoin]
    · have hspan : ¬ (⟨length, p.need⟩ : Span).Fits (front ++ b) := by
        simp only [Span.Fits, Span.stop, List.length_append]
        omega
      rw [if_neg hspan, placeOne_of_lt hlong, List.append_nil, List.length_nil, Nat.add_zero]

/-- **In place.**  Parts are placed behind what has been written, and a table names their ends.  In
front of the entries of the table is `a`, between them and the parts `c`. -/
theorem placeInto_eq (hkeep : AllKeep parts) {table i length : Nat} {a t c : Bytes}
    (ha : a.length = table + i * Word.width) (ht : t.length = parts.length * Word.width)
    (hlength : (a ++ t ++ c).length = length) (b : Bytes) :
    placeInto (withEntries table i parts) ⟨a ++ t ++ c ++ b, length⟩
      = ⟨a ++ words (ends length (place parts b).1) ++ c ++ (place parts b).1.flatten
          ++ (place parts b).2, length + (place parts b).1.flatten.length⟩ := by
  induction parts generalizing i length a t c b with
  | nil =>
    have hnil : t = [] := by
      rw [List.length_nil, Nat.zero_mul] at ht
      exact List.length_eq_zero_iff.mp ht
    rw [withEntries, placeInto, hnil]
    simp only [place, ends, words, List.flatMap_nil, List.flatten_nil, List.append_nil,
      List.length_nil, Nat.add_zero]
  | cons part parts ih =>
    rw [List.length_cons, Nat.succ_mul] at ht
    rw [withEntries, placeInto, putInto_eq hkeep.head hlength, place]
    dsimp only
    generalize placeOne part b = placed
    obtain ⟨chunk, left⟩ := placed
    dsimp only
    -- the first entry of the table takes the end of the chunk
    have hsplit : a ++ t ++ c ++ chunk ++ left
        = a ++ t.take Word.width ++ (t.drop Word.width ++ c ++ chunk ++ left) := by
      simp only [List.append_assoc]
      rw [← List.append_assoc (List.take _ _), List.take_append_drop]
    have hentry : (t.take Word.width).length = Word.width := by
      rw [List.length_take]
      omega
    have hassoc : a ++ Word.toBytes (Word.ofLength (length + chunk.length))
        ++ (t.drop Word.width ++ c ++ chunk ++ left)
        = (a ++ Word.toBytes (Word.ofLength (length + chunk.length))) ++ t.drop Word.width
          ++ (c ++ chunk) ++ left := by
      simp only [List.append_assoc]
    rw [hsplit, Word.store_middle ha hentry, hassoc, ih hkeep.tail]
    · simp only [ends, words_cons, List.flatten_cons, List.length_append, List.append_assoc,
        Nat.add_assoc]
    · rw [List.length_append, Word.length_toBytes, ha, Nat.succ_mul]
      omega
    · rw [List.length_drop]
      omega
    · simp only [List.length_append, List.length_drop, Word.length_toBytes] at hlength ⊢
      omega

/-! ## Vectors -/

variable {size : Value → Nat} {put : Value → Bytes → Written} {items : List Value}

/-- The parts of a list, by the size of an item and how it is written. -/
def itemParts (size : Value → Nat) (put : Value → Bytes → Written) (items : List Value) :
    List (Option Part) :=
  items.map fun v => if v.isNull then none else some ⟨size v, put v⟩

@[simp] theorem length_itemParts (size : Value → Nat) (put : Value → Bytes → Written)
    (items : List Value) : (itemParts size put items).length = items.length := by
  rw [itemParts, List.length_map]

theorem allKeep_itemParts (hput : ∀ v, Keeps (put v)) (size : Value → Nat) (items : List Value) :
    AllKeep (itemParts size put items) := by
  intro part hpart p hp
  obtain ⟨v, -, hv⟩ := List.mem_map.mp hpart
  rw [hp] at hv
  split_ifs at hv
  rw [Option.some.injEq] at hv
  rw [← hv]
  exact hput v

theorem needs_itemParts (size : Value → Nat) (put : Value → Bytes → Written)
    (items : List Value) :
    needs (itemParts size put items) = (items.map fun v => if v.isNull then 0 else size v).sum := by
  rw [needs, itemParts, List.map_map]
  congr 2
  funext v
  rw [Function.comp_apply]
  by_cases h : v.isNull
  · rw [if_pos h, if_pos h]
    rfl
  · rw [if_neg h, if_neg h]
    rfl

/-- Packing places the items, and notes where each chunk ends. -/
theorem pack_eq (hkeep : AllKeep (itemParts size put items)) (start : Nat) (b : Bytes) :
    pack size put items start b
      = ⟨ends start (place (itemParts size put items) b).1,
        (place (itemParts size put items) b).1.flatten
          ++ (place (itemParts size put items) b).2⟩ := by
  induction items generalizing start b with
  | nil => rfl
  | cons v items ih =>
    have hparts : itemParts size put (v :: items)
        = (if v.isNull then none else some ⟨size v, put v⟩) :: itemParts size put items := rfl
    rw [hparts] at hkeep ⊢
    rw [pack, place]
    dsimp only
    -- an item is left out for two reasons, and both leave a hole
    by_cases hfits : v.isNull = false ∧ size v ≤ b.length
    · have htest : (!v.isNull && decide (size v ≤ b.length)) = true := by
        rw [hfits.1, decide_eq_true hfits.2]
        rfl
      have hslot : (b.take (size v)).length = size v := by
        rw [List.length_take, Nat.min_eq_left hfits.2]
      have hsome : (if v.isNull then none else some ⟨size v, put v⟩)
          = some (⟨size v, put v⟩ : Part) := by
        rw [hfits.1]
        rfl
      obtain ⟨hbytes, hlength⟩ := hkeep.head _ hsome (b.take (size v))
      dsimp only at hbytes hlength
      have hvalue : (put v (b.take (size v))).value.length = (put v (b.take (size v))).length :=
        Written.length_value (by omega)
      rw [hsome, placeOne_of_le hfits.2]
      simp only [if_pos htest, ih hkeep.tail, ends, hvalue, List.flatten_cons, List.append_assoc]
    · have htest : ¬ (!v.isNull && decide (size v ≤ b.length)) = true := by
        rw [Bool.and_eq_true, Bool.not_eq_true', decide_eq_true_eq]
        exact hfits
      have hhole : placeOne (if v.isNull then none else some ⟨size v, put v⟩) b = ([], b) := by
        cases hnull : v.isNull with
        | true => rfl
        | false => exact placeOne_of_lt (lt_of_not_ge fun hle => hfits ⟨hnull, hle⟩)
      rw [hhole]
      simp only [if_neg htest, ih hkeep.tail, ends, List.length_nil, List.flatten_cons,
        Written.value, List.take_nil, List.append_assoc]

theorem vectorCount_le (count room : Nat) : vectorCount count room ≤ count :=
  Nat.min_le_left _ _

/-- The header of a vector fits, since only so many items are taken. -/
theorem headerLength_vectorCount_le (count : Nat) {room : Nat} (h : headerLength 0 ≤ room) :
    headerLength (vectorCount count room) ≤ room := by
  simp only [vectorCount, headerLength, Word.width] at h ⊢
  omega

/-- No more items fit. -/
theorem room_lt_headerLength {count n : Nat} (room : Nat) (hn : vectorCount count room < n)
    (hle : n ≤ count) : room < headerLength n := by
  simp only [vectorCount, headerLength, Word.width] at hn ⊢
  omega

/-- All items are taken where the header of all fits. -/
theorem vectorCount_eq {count room : Nat} (h : headerLength count ≤ room) :
    vectorCount count room = count := by
  simp only [vectorCount, headerLength, Word.width] at h ⊢
  omega

theorem length_vectorImage_place (hkeep : AllKeep parts) (h : headerLength parts.length ≤ b.length) :
    (vectorImage (place parts (b.drop (headerLength parts.length))).1).length
        + (place parts (b.drop (headerLength parts.length))).2.length = b.length := by
  have hplace := length_place hkeep (b.drop (headerLength parts.length))
  rw [List.length_drop] at hplace
  rw [length_vectorImage, length_place_fst]
  omega

/-- **Vectors.**  Writing a vector makes the image of those items that the header has room for, as
they are placed behind it. -/
theorem writeVector_eq (count : Nat) (hroom : headerLength 0 ≤ b.length)
    (hcount : vectorCount items.length b.length = count)
    (hkeep : AllKeep (itemParts size put (items.take count))) {p : List Bytes × Bytes}
    (hp : place (itemParts size put (items.take count)) (b.drop (headerLength count)) = p) :
    writeVector size put items b
      = ⟨vectorImage p.1 ++ p.2, (vectorImage p.1).length⟩ := by
  have hlength : p.1.length = count := by
    have hle := vectorCount_le items.length b.length
    rw [← hp, length_place_fst, length_itemParts, List.length_take, Nat.min_eq_left (by omega)]
  rw [writeVector, if_neg (by omega)]
  dsimp only
  rw [hcount, pack_eq hkeep, hp]
  dsimp only
  rw [getLastD_ends, length_vectorImage, vectorImage, hlength, List.append_assoc]
  rfl

/-- Where there is room for all items, all of them are placed. -/
theorem writeVector_full (size : Value → Nat) (hput : ∀ v, Keeps (put v))
    (h : headerLength items.length + needs (itemParts size put items) ≤ b.length) :
    writeVector size put items b
      = ⟨vectorImage (place (itemParts size put items) (b.drop (headerLength items.length))).1
          ++ (place (itemParts size put items) (b.drop (headerLength items.length))).2,
        (vectorImage
          (place (itemParts size put items) (b.drop (headerLength items.length))).1).length⟩ := by
  have htake : items.take items.length = items := List.take_of_length_le (le_refl _)
  apply writeVector_eq items.length
  · rw [headerLength, Word.width] at h ⊢
    omega
  · exact vectorCount_eq (by omega)
  · exact allKeep_itemParts hput size _
  · rw [htake]

/-- Where there is room for all items, more room changes nothing. -/
theorem writeVector_append (hput : ∀ v, Keeps (put v))
    (h : headerLength items.length + needs (itemParts size put items) ≤ b.length) (c : Bytes) :
    writeVector size put items (b ++ c)
      = ⟨(writeVector size put items b).bytes ++ c, (writeVector size put items b).length⟩ := by
  have hplace := place_append (allKeep_itemParts hput size items)
    (b := b.drop (headerLength items.length)) (by rw [List.length_drop]; omega) c
  rw [writeVector_full size hput h, writeVector_full size hput (by rw [List.length_append]; omega),
    List.drop_append_of_le_length (by omega), hplace]
  simp only [List.append_assoc]

theorem keeps_writeVector (size : Value → Nat) (hput : ∀ v, Keeps (put v)) (items : List Value) :
    Keeps (writeVector size put items) := by
  intro b
  by_cases hroom : headerLength 0 ≤ b.length
  · have hheader := headerLength_vectorCount_le items.length hroom
    have hkeep := allKeep_itemParts hput size (items.take (vectorCount items.length b.length))
    have hle := vectorCount_le items.length b.length
    have hparts : (itemParts size put (items.take (vectorCount items.length b.length))).length
        = vectorCount items.length b.length := by
      rw [length_itemParts, List.length_take, Nat.min_eq_left hle]
    have hsum := length_vectorImage_place hkeep (b := b) (by rw [hparts]; exact hheader)
    rw [hparts] at hsum
    rw [writeVector_eq _ hroom rfl hkeep rfl]
    dsimp only
    rw [List.length_append]
    omega
  · rw [writeVector, if_pos (by omega)]
    exact ⟨rfl, Nat.zero_le _⟩

/-! ## Dicts -/

/-- The bytes that the slots of a run become. -/
def rewriteSlots (stride : Nat) : List (Bytes → Bytes) → Bytes → List Bytes
  | [], _ => []
  | f :: fs, b => f (b.take stride) :: rewriteSlots stride fs (b.drop stride)

variable {stride : Nat} {fs : List (Bytes → Bytes)}

theorem onSlots_eq (stride : Nat) (fs : List (Bytes → Bytes)) (b : Bytes) :
    onSlots stride fs b = (rewriteSlots stride fs b).flatten ++ b.drop (fs.length * stride) := by
  induction fs generalizing b with
  | nil => rw [onSlots, rewriteSlots, List.length_nil, Nat.zero_mul, List.drop_zero]; rfl
  | cons f fs ih =>
    rw [onSlots, rewriteSlots, ih, List.flatten_cons, List.append_assoc, List.drop_drop,
      List.length_cons, Nat.succ_mul, Nat.add_comm stride]

@[simp] theorem length_rewriteSlots (stride : Nat) (fs : List (Bytes → Bytes)) (b : Bytes) :
    (rewriteSlots stride fs b).length = fs.length := by
  induction fs generalizing b with
  | nil => rfl
  | cons f fs ih => rw [rewriteSlots, List.length_cons, ih, List.length_cons]

/-- Each slot becomes what its own function makes of a slot of full size. -/
theorem rewriteSlots_spec (h : fs.length * stride ≤ b.length) :
    List.Forall₂ (fun f new => ∃ slot : Bytes, slot.length = stride ∧ new = f slot) fs
      (rewriteSlots stride fs b) := by
  induction fs generalizing b with
  | nil => exact List.Forall₂.nil
  | cons f fs ih =>
    rw [List.length_cons, Nat.succ_mul] at h
    refine List.Forall₂.cons ⟨b.take stride, ?_, rfl⟩ (ih ?_)
    · rw [List.length_take, Nat.min_eq_left (by omega)]
    · rw [List.length_drop]
      omega

theorem length_of_mem_rewriteSlots
    (hf : ∀ f ∈ fs, ∀ slot : Bytes, slot.length = stride → (f slot).length = stride)
    (h : fs.length * stride ≤ b.length) : ∀ new ∈ rewriteSlots stride fs b, new.length = stride := by
  induction fs generalizing b with
  | nil => exact fun new hnew => absurd hnew List.not_mem_nil
  | cons f fs ih =>
    rw [List.length_cons, Nat.succ_mul] at h
    intro new hnew
    unfold rewriteSlots at hnew
    rcases List.mem_cons.mp hnew with rfl | hnew
    · apply hf f List.mem_cons_self
      rw [List.length_take, Nat.min_eq_left (by omega)]
    · exact ih (fun g hg => hf g (List.mem_cons_of_mem _ hg)) (by rw [List.length_drop]; omega)
        new hnew

/-- More bytes behind the slots change nothing. -/
theorem rewriteSlots_append (h : fs.length * stride ≤ b.length) (c : Bytes) :
    rewriteSlots stride fs (b ++ c) = rewriteSlots stride fs b := by
  induction fs generalizing b with
  | nil => rfl
  | cons f fs ih =>
    rw [List.length_cons, Nat.succ_mul] at h
    rw [rewriteSlots, rewriteSlots, List.take_append_of_le_length (by omega),
      List.drop_append_of_le_length (by omega), ih (by rw [List.length_drop]; omega)]

theorem dictCount_le (keyLength count room : Nat) : dictCount keyLength count room ≤ count :=
  Nat.min_le_left _ _

/-- The number of bytes that so many entries of a dict take apart from their values. -/
theorem dictOverhead_eq (keyLength count : Nat) :
    dictOverhead keyLength count = dictOverhead keyLength 0 + count * (Word.width + keyLength) := by
  unfold dictOverhead headerLength
  ring

/-- The header and the keys of a dict fit, since only so many entries are taken. -/
theorem dictOverhead_dictCount_le {keyLength room : Nat} (count : Nat)
    (h : dictOverhead keyLength 0 ≤ room) :
    dictOverhead keyLength (dictCount keyLength count room) ≤ room := by
  -- the count is the quotient of the room by the bytes of one entry
  have hle : dictCount keyLength count room * (Word.width + keyLength)
      ≤ room - dictOverhead keyLength 0 :=
    le_trans (Nat.mul_le_mul_right _ (Nat.min_le_right _ _)) (Nat.div_mul_le_self _ _)
  rw [dictOverhead_eq]
  omega

/-- No more entries fit. -/
theorem room_lt_dictOverhead {keyLength count room n : Nat}
    (h : dictOverhead keyLength 0 ≤ room) (hn : dictCount keyLength count room < n)
    (hle : n ≤ count) : room < dictOverhead keyLength n := by
  have hpos : 0 < Word.width + keyLength := by
    unfold Word.width
    omega
  have hdiv : (room - dictOverhead keyLength 0) / (Word.width + keyLength) < n := by
    unfold dictCount at hn
    omega
  rw [Nat.div_lt_iff_lt_mul hpos] at hdiv
  rw [dictOverhead_eq]
  omega

/-- All entries are taken where the header and the keys of all fit. -/
theorem dictCount_eq {keyLength count room : Nat} (h : dictOverhead keyLength count ≤ room) :
    dictCount keyLength count room = count := by
  by_contra hne
  have hle := dictCount_le keyLength count room
  have hzero : dictOverhead keyLength 0 ≤ room := by
    rw [dictOverhead_eq] at h
    omega
  exact absurd (room_lt_dictOverhead hzero (by omega) (le_refl count)) (by omega)

/-- The number of bytes that a dict leaves to its values and their header, in front of the word and
the keys. -/
def valueRoom (keyLength count : Nat) (b : Bytes) : Nat := b.length - Word.width - count * keyLength

/-- The values of the entries of a dict, as they are placed behind the header, and what they leave
of their room. -/
def placeValues (keyLength : Nat) (size : Value → Nat) (put : Value → Bytes → Written)
    (entries : List (String × Value)) (b : Bytes) : List Bytes × Bytes :=
  place (itemParts size put (entries.map (·.2)))
    ((b.take (valueRoom keyLength entries.length b)).drop (headerLength entries.length))

/-- What is behind the word that says where the keys begin, before they are written. -/
def keyRoom (keyLength : Nat) (size : Value → Nat) (put : Value → Bytes → Written)
    (entries : List (String × Value)) (b : Bytes) : Bytes :=
  ((placeValues keyLength size put entries b).2
    ++ b.drop (valueRoom keyLength entries.length b)).drop Word.width

/-- The keys of the entries of a dict, as they are written. -/
def placeKeys (keyLength : Nat) (putKey : String → Bytes → Bytes) (size : Value → Nat)
    (put : Value → Bytes → Written) (entries : List (String × Value)) (b : Bytes) : List Bytes :=
  rewriteSlots keyLength (entries.map fun e => putKey e.1) (keyRoom keyLength size put entries b)

section Dict

variable {keyLength : Nat} {putKey : String → Bytes → Bytes} {entries fields : List (String × Value)}

theorem headerLength_le_valueRoom {count : Nat} (h : dictOverhead keyLength count ≤ b.length) :
    headerLength count ≤ (b.take (valueRoom keyLength count b)).length := by
  unfold dictOverhead at h
  rw [List.length_take, valueRoom]
  omega

/-- The values of a dict are written as a vector of their own, in the room that is left to them. -/
theorem writeVector_valueRoom (hput : ∀ v, Keeps (put v))
    (hroom : dictOverhead keyLength entries.length ≤ b.length) :
    writeVector size put (entries.map (·.2)) (b.take (valueRoom keyLength entries.length b))
      = ⟨vectorImage (placeValues keyLength size put entries b).1
          ++ (placeValues keyLength size put entries b).2,
        (vectorImage (placeValues keyLength size put entries b).1).length⟩ := by
  have hheader := headerLength_le_valueRoom hroom
  have htake : (entries.map (·.2)).take entries.length = entries.map (·.2) :=
    List.take_of_length_le (by rw [List.length_map])
  apply writeVector_eq entries.length
  · refine le_trans ?_ hheader
    unfold headerLength Word.width
    omega
  · rw [List.length_map, vectorCount_eq hheader]
  · exact allKeep_itemParts hput size _
  · rw [htake]
    rfl

/-- The values of a dict and what they leave make up their room. -/
theorem length_placeValues (size : Value → Nat) (hput : ∀ v, Keeps (put v))
    (hroom : dictOverhead keyLength entries.length ≤ b.length) :
    (vectorImage (placeValues keyLength size put entries b).1).length
        + (placeValues keyLength size put entries b).2.length
      = valueRoom keyLength entries.length b := by
  have hheader := headerLength_le_valueRoom hroom
  have hparts : (itemParts size put (entries.map (·.2))).length = entries.length := by
    rw [length_itemParts, List.length_map]
  have hsum := length_vectorImage_place (allKeep_itemParts hput size (entries.map (·.2)))
    (b := b.take (valueRoom keyLength entries.length b)) (by rw [hparts]; exact hheader)
  rw [hparts, List.length_take] at hsum
  rw [placeValues, hsum, valueRoom]
  omega

/-- There is room for all keys. -/
theorem length_keyRoom (size : Value → Nat) (put : Value → Bytes → Written)
    (hroom : dictOverhead keyLength entries.length ≤ b.length) :
    (keyRoom keyLength size put entries b).length
      = (placeValues keyLength size put entries b).2.length + entries.length * keyLength := by
  unfold dictOverhead at hroom
  rw [keyRoom, List.length_drop, List.length_append, List.length_drop, valueRoom]
  omega

theorem length_of_mem_placeKeys (size : Value → Nat) (put : Value → Bytes → Written)
    (hkeys : ∀ name slot, slot.length = keyLength → (putKey name slot).length = keyLength)
    (hroom : dictOverhead keyLength entries.length ≤ b.length) :
    ∀ key ∈ placeKeys keyLength putKey size put entries b, key.length = keyLength := by
  apply length_of_mem_rewriteSlots
  · intro f hf slot hslot
    obtain ⟨entry, -, rfl⟩ := List.mem_map.mp hf
    exact hkeys _ _ hslot
  · rw [List.length_map, length_keyRoom size put hroom]
    omega

@[simp] theorem length_placeKeys : (placeKeys keyLength putKey size put entries b).length
    = entries.length := by
  rw [placeKeys, length_rewriteSlots, List.length_map]

@[simp] theorem length_placeValues_fst :
    (placeValues keyLength size put entries b).1.length = entries.length := by
  rw [placeValues, length_place_fst, length_itemParts, List.length_map]

/-- **Dicts.**  Writing a dict makes the image of those entries that the header and the keys have
room for. -/
theorem writeDict_eq (size : Value → Nat) (hput : ∀ v, Keeps (put v))
    (hkeys : ∀ name slot, slot.length = keyLength → (putKey name slot).length = keyLength)
    (hroom : dictOverhead keyLength 0 ≤ b.length)
    (hentries : fields.take (dictCount keyLength fields.length b.length) = entries) :
    writeDict keyLength putKey size put fields b
      = ⟨dictImage (placeValues keyLength size put entries b).1
            (placeKeys keyLength putKey size put entries b)
          ++ (keyRoom keyLength size put entries b).drop (entries.length * keyLength),
        (dictImage (placeValues keyLength size put entries b).1
          (placeKeys keyLength putKey size put entries b)).length⟩ := by
  have hcount : dictCount keyLength fields.length b.length = entries.length := by
    have hle := dictCount_le keyLength fields.length b.length
    rw [← hentries, List.length_take, Nat.min_eq_left (by omega)]
  have hoverhead := dictOverhead_dictCount_le fields.length hroom
  rw [hcount] at hoverhead hentries
  -- the values end where the vector of them does, and the keys come right behind the word
  have hvalue : Written.value ⟨vectorImage (placeValues keyLength size put entries b).1
      ++ (placeValues keyLength size put entries b).2,
      (vectorImage (placeValues keyLength size put entries b).1).length⟩
      = vectorImage (placeValues keyLength size put entries b).1 := List.take_left
  have hafter : (vectorImage (placeValues keyLength size put entries b).1
      ++ (placeValues keyLength size put entries b).2
        ++ b.drop (valueRoom keyLength entries.length b)).drop
      ((vectorImage (placeValues keyLength size put entries b).1).length + Word.width)
      = keyRoom keyLength size put entries b := by
    rw [List.append_assoc, ← List.drop_drop, List.drop_left, keyRoom]
  have hkeysLength : (placeKeys keyLength putKey size put entries b).flatten.length
      = entries.length * keyLength := by
    rw [length_flatten_of_length_eq (length_of_mem_placeKeys size put hkeys hoverhead), length_placeKeys]
  rw [writeDict, if_neg (by omega)]
  dsimp only
  rw [hcount, hentries, show b.length - Word.width - entries.length * keyLength
    = valueRoom keyLength entries.length b from rfl, writeVector_valueRoom hput hoverhead, hvalue]
  dsimp only
  rw [hafter, onSlots_eq, length_dictImage, hkeysLength, List.length_map, dictImage, placeKeys]
  simp only [List.append_assoc]

/-- The image of a dict and what is left behind it make up the byte string. -/
theorem length_dictImage_place (size : Value → Nat) (hput : ∀ v, Keeps (put v))
    (hkeys : ∀ name slot, slot.length = keyLength → (putKey name slot).length = keyLength)
    (hroom : dictOverhead keyLength entries.length ≤ b.length) :
    (dictImage (placeValues keyLength size put entries b).1
          (placeKeys keyLength putKey size put entries b)).length
        + ((keyRoom keyLength size put entries b).drop (entries.length * keyLength)).length
      = b.length := by
  have hsum := length_placeValues size hput hroom
  have hafter := length_keyRoom size put hroom
  rw [length_dictImage, List.length_drop, hafter,
    length_flatten_of_length_eq (length_of_mem_placeKeys size put hkeys hroom), length_placeKeys]
  unfold valueRoom at hsum
  unfold dictOverhead headerLength Word.width at hroom
  rw [Word.width] at hsum ⊢
  omega

/-- Where there is room for all entries, all of them are placed. -/
theorem writeDict_full (hput : ∀ v, Keeps (put v))
    (hkeys : ∀ name slot, slot.length = keyLength → (putKey name slot).length = keyLength)
    (hroom : dictOverhead keyLength fields.length ≤ b.length) :
    writeDict keyLength putKey size put fields b
      = ⟨dictImage (placeValues keyLength size put fields b).1
            (placeKeys keyLength putKey size put fields b)
          ++ (keyRoom keyLength size put fields b).drop (fields.length * keyLength),
        (dictImage (placeValues keyLength size put fields b).1
          (placeKeys keyLength putKey size put fields b)).length⟩ := by
  apply writeDict_eq size hput hkeys
  · rw [dictOverhead_eq] at hroom
    omega
  · rw [dictCount_eq hroom, List.take_of_length_le (le_refl _)]

/-- Where there is room for all entries, more room changes nothing. -/
theorem writeDict_append (hput : ∀ v, Keeps (put v))
    (hkeys : ∀ name slot, slot.length = keyLength → (putKey name slot).length = keyLength)
    (h : dictOverhead keyLength fields.length + needs (itemParts size put (fields.map (·.2)))
      ≤ b.length) (c : Bytes) :
    writeDict keyLength putKey size put fields (b ++ c)
      = ⟨(writeDict keyLength putKey size put fields b).bytes ++ c,
        (writeDict keyLength putKey size put fields b).length⟩ := by
  have hroom : valueRoom keyLength fields.length (b ++ c)
      = valueRoom keyLength fields.length b + c.length := by
    unfold dictOverhead at h
    rw [valueRoom, valueRoom, List.length_append]
    omega
  have hoverhead : dictOverhead keyLength fields.length ≤ b.length := by omega
  have hheader := headerLength_le_valueRoom hoverhead
  have hle : valueRoom keyLength fields.length b ≤ b.length := by
    unfold valueRoom
    omega
  -- the room of the values grows by some bytes, which stand in front of the remaining ones
  obtain ⟨more, hmore⟩ : ∃ more, (b ++ c).take (valueRoom keyLength fields.length b + c.length)
      = b.take (valueRoom keyLength fields.length b) ++ more := by
    refine ⟨((b ++ c).drop (valueRoom keyLength fields.length b)).take c.length, ?_⟩
    rw [List.take_add, List.take_append_of_le_length hle]
  have hrest : more ++ (b ++ c).drop (valueRoom keyLength fields.length b + c.length)
      = b.drop (valueRoom keyLength fields.length b) ++ c := by
    have hsplit := List.take_append_drop (valueRoom keyLength fields.length b + c.length) (b ++ c)
    have hsplit' := List.take_append_drop (valueRoom keyLength fields.length b) b
    rw [hmore] at hsplit
    conv_rhs at hsplit => rw [← hsplit']
    rw [List.append_assoc, List.append_assoc] at hsplit
    exact List.append_cancel_left hsplit
  -- the values had room enough before, so the new bytes are left over
  have hvalues : placeValues keyLength size put fields (b ++ c)
      = ((placeValues keyLength size put fields b).1,
        (placeValues keyLength size put fields b).2 ++ more) := by
    have hplace := place_append (allKeep_itemParts hput size (fields.map (·.2)))
      (b := (b.take (valueRoom keyLength fields.length b)).drop (headerLength fields.length)) (by
        unfold dictOverhead at h
        rw [List.length_drop, List.length_take, valueRoom]
        omega) more
    rw [placeValues, hroom, hmore, List.drop_append_of_le_length hheader, hplace, placeValues]
  -- whatever stands behind the values, the keys are written over it
  have hkeyRoom : keyRoom keyLength size put fields (b ++ c)
      = keyRoom keyLength size put fields b ++ c := by
    rw [keyRoom, hvalues, hroom]
    dsimp only
    rw [List.append_assoc, hrest, ← List.append_assoc, List.drop_append_of_le_length, keyRoom]
    unfold dictOverhead at h
    rw [List.length_append, List.length_drop, valueRoom]
    omega
  have hslots : fields.length * keyLength ≤ (keyRoom keyLength size put fields b).length := by
    rw [length_keyRoom size put (by omega)]
    omega
  have hplaceKeys : placeKeys keyLength putKey size put fields (b ++ c)
      = placeKeys keyLength putKey size put fields b := by
    rw [placeKeys, hkeyRoom, rewriteSlots_append (by rw [List.length_map]; exact hslots), placeKeys]
  rw [writeDict_full hput hkeys (by rw [List.length_append]; omega),
    writeDict_full hput hkeys (by omega), hplaceKeys, hvalues, hkeyRoom,
    List.drop_append_of_le_length hslots]
  dsimp only
  rw [List.append_assoc]

theorem keeps_writeDict (size : Value → Nat) (hput : ∀ v, Keeps (put v))
    (hkeys : ∀ name slot, slot.length = keyLength → (putKey name slot).length = keyLength)
    (fields : List (String × Value)) : Keeps (writeDict keyLength putKey size put fields) := by
  intro b
  by_cases hroom : dictOverhead keyLength 0 ≤ b.length
  · have hoverhead := dictOverhead_dictCount_le fields.length hroom
    have hlength : (fields.take (dictCount keyLength fields.length b.length)).length
        = dictCount keyLength fields.length b.length := by
      have hle := dictCount_le keyLength fields.length b.length
      rw [List.length_take, Nat.min_eq_left (by omega)]
    rw [← hlength] at hoverhead
    have hsum := length_dictImage_place size hput hkeys hoverhead
    rw [writeDict_eq size hput hkeys hroom rfl]
    dsimp only
    rw [List.length_append]
    omega
  · rw [writeDict, if_pos (by omega)]
    exact ⟨rfl, Nat.zero_le _⟩

end Dict

end Layout

end BinarySchema
