/-
# Reading never faults

The readers once more, built from operations that can fault.  An offset that is read from a byte
string may be anything, so every span is compared with the length before its bytes are taken.

Whatever the bytes are, the readers give what those of the library give: decoding (`decode_ok`), and
all that finds parts without decoding.
-/
import BinarySchema.Proofs.CheckedWrite
import BinarySchema.Proofs.Access

namespace BinarySchema

namespace Layout

namespace Checked

open BinarySchema.Checked

/-! ## Where the parts are -/

/-- The span of an item of an array whose items with number `i` begin at `offset i`. -/
def slot? (offset : Nat → Nat) (stride capacity : Nat) (b : Bytes) (i : Nat) :
    Checked (Option Span) := do
  if i < (← slotCount stride capacity b) then return some ⟨offset i, stride⟩ else return none

/-- The span between two offsets that are stored, if it lies inside the byte string and holds at
least one byte. -/
def storedSpan? (b : Bytes) (start stop : Option Nat) : Checked (Option Span) :=
  match start, stop with
  | some start, some stop =>
    if stop ≤ start ∨ b.length < stop then .ok none
    else do return some ⟨start, ← subtract stop start⟩
  | _, _ => .ok none

/-- The span of an item of a vector. -/
def vectorSpan? (b : Bytes) (i : Nat) : Checked (Option Span) := do
  if i < (← readLength b 0) then
    storedSpan? b (← readOffset? b (entryOffset i)) (← readOffset? b (entryOffset (i + 1)))
  else return none

/-- Where the last item of a vector ends. -/
def vectorEnd (b : Bytes) : Checked Nat := do readLength b (entryOffset (← readLength b 0))

/-- Where the keys of a dict begin. -/
def keysOffset (b : Bytes) : Checked Nat := do readLength b (← vectorEnd b)

/-- The span of the key of a dict with the given number, if the dict has it. -/
def keySpan? (keyLength : Nat) (b : Bytes) (i : Nat) : Checked (Option Span) := do
  let span : Span := ⟨(← keysOffset b) + i * keyLength, keyLength⟩
  if i < (← readLength b 0) ∧ span.Fits b then return some span else return none

/-- Where an optional field of a map begins: where the one before it ends. -/
def optionalStart? (table data : Nat) (b : Bytes) (ordinal : Nat) : Checked (Option Nat) :=
  if ordinal = 0 then .ok (some data)
  else do readOffset? b (table + (← subtract ordinal 1) * Word.width)

/-- The span of an optional field of a map. -/
def optionalSpan? (table data : Nat) (b : Bytes) (ordinal : Nat) : Checked (Option Span) := do
  storedSpan? b (← optionalStart? table data b ordinal)
    (← readOffset? b (table + ordinal * Word.width))

/-- The number of items of a list, or of entries of a dict. -/
def itemCount : Layout → Bytes → Checked Nat
  | .array _ stride capacity, b => slotCount stride capacity b
  | .packed p capacity, b => slotCount p.width capacity b
  | .vector _ _, b | .dict _ _ _, b => readLength b 0
  | _, _ => .ok 0

/-- The layout and the span of an item of a list, or of a value of a dict by its number. -/
def itemSpan? (layout : Layout) (b : Bytes) (i : Nat) : Checked (Option (Layout × Span)) :=
  match layout with
  | .array item stride capacity => do
    return (← slot? (itemOffset stride) stride capacity b i).map (item, ·)
  | .packed p capacity => do
    return (← slot? (packedOffset p) p.width capacity b i).map (.primitive p, ·)
  | .vector item _ => do return (← vectorSpan? b i).map (item, ·)
  | .dict _ _ value => do return (← vectorSpan? b i).map (value, ·)
  | _ => .ok none

/-- The layout and the span of a field of a record, by its position.  Only an optional field has to
be looked for. -/
def fieldSpan? (layout : Layout) (b : Bytes) (i : Nat) : Checked (Option (Layout × Span)) :=
  match layout with
  | .map fields =>
    match fields[i]? with
    | none => .ok none
    | some f =>
      match f.place with
      | .fixed span => .ok (some (f.layout, span))
      | .optional k => do
        return (← optionalSpan? (fixedRegion fields) (dataStart fields) b k).map (f.layout, ·)
  | layout => .ok (layout.fieldSpan? b i)

/-- The number of bytes that the value at the front of a byte string takes. -/
def usedLength (layout : Layout) (b : Bytes) : Checked Nat := do
  let stored ←
    match layout with
    | .vector _ _ => vectorEnd b
    | .map fields => readLength b (usedLengthOffset fields)
    | .dict _ keyLength _ => do pure ((← keysOffset b) + (← readLength b 0) * keyLength)
    | _ => .ok (layout.fixedLength?.getD b.length)
  return min stored b.length

/-! ## Decoding -/

/-- The text that bytes hold, up to the first zero byte. -/
def contentText (b : Bytes) : Checked String := do
  return Text.ofUtf8 (← slice b 0 (b.findIdx (· == 0)))

/-- The content of a blob: all bytes, as far as the cap admits them. -/
def contentBytes (cap : Option Nat) (b : Bytes) : Checked Bytes :=
  slice b 0 (capped cap b.length)

section Parts

variable (decode : Bytes → Checked Value)

/-- What the bytes under a span decode to, if there is one. -/
def decodeSpan? (b : Bytes) (span : Option Span) : Checked (Option Value) :=
  match span with
  | none => .ok none
  | some span => do return some (← decode (← slice b span.start span.stop))

/-- What the items of a vector decode to, a hole to null. -/
def vectorItems (b : Bytes) : Checked (List Value) := do
  (List.range (← readLength b 0)).mapM fun i => do
    return (← decodeSpan? decode b (← vectorSpan? b i)).getD .null

/-- Pairs the values of a dict with its keys, up to the first key that is cut off.  Of entries with
one key the first stays. -/
def takeEntries (name : Bytes → Checked String) (keyLength : Nat) (b : Bytes) :
    List Value → (i : Nat) → List (String × Value) → Checked (List (String × Value))
  | [], _, out => .ok out
  | v :: rest, i, out => do
    match ← keySpan? keyLength b i with
    | none => return out
    | some span =>
      let key ← name (← slice b span.start span.stop)
      takeEntries name keyLength b rest (i + 1) (Value.insertNewField key v out)

end Parts

mutual

/-- The value at the front of a byte string. -/
def decode : Layout → Bytes → Checked Value
  | .primitive p, b => readNumber p b
  | .text _, b => do return .text (← contentText b)
  | .blob cap, b => do return .blob (← contentBytes cap b)
  | .array item stride capacity, b => do
    let items ← (List.range (← slotCount stride capacity b)).mapM fun i => do
      decodeSpan? (fun bytes => decode item bytes) b
        (← slot? (itemOffset stride) stride capacity b i)
    return .list (items.filterMap id)
  | .packed p capacity, b => do
    let items ← (List.range (← slotCount p.width capacity b)).mapM fun i => do
      readNumber p (← slice b (packedOffset p i) b.length)
    return .list items
  | .vector item _, b => do return .list (← vectorItems (fun bytes => decode item bytes) b)
  | .dict key keyLength value, b => do
    let values ← vectorItems (fun bytes => decode value bytes) b
    let name (bytes : Bytes) : Checked String := do return keyText key (← decode key bytes)
    return .record (← takeEntries name keyLength b values 0 [])
  | .object fields, b => do return .record (← decodeFixed fields b [])
  | .map fields, b => do
    let out ← decodeFixed fields b []
    return .record (← decodeOptional (fixedRegion fields) (dataStart fields) fields b out)

/-- Adds the fields at fixed places.  One that is cut off is null. -/
def decodeFixed : List (Field Layout) → Bytes → List (String × Value) →
    Checked (List (String × Value))
  | [], _, out => .ok out
  | f :: rest, b, out => do
    let out ←
      match f.place with
      | .optional _ => .ok out
      | .fixed span =>
        match span.slice? b with
        | none => .ok (Value.insertField f.name .null out)
        | some slot => do pure (Value.insertField f.name (← decode f.layout slot) out)
    decodeFixed rest b out

/-- Adds the optional fields of a map that are present. -/
def decodeOptional (table data : Nat) :
    List (Field Layout) → Bytes → List (String × Value) → Checked (List (String × Value))
  | [], _, out => .ok out
  | f :: rest, b, out => do
    let out ←
      match f.place with
      | .fixed _ => .ok out
      | .optional ordinal => do
        match ← decodeSpan? (fun bytes => decode f.layout bytes) b
          (← optionalSpan? table data b ordinal) with
        | none => pure out
        | some v => pure (Value.insertField f.name v out)
    decodeOptional table data rest b out

end

/-! ## Searching -/

/-- The first number from `start` up to `stop` that has a property. -/
def findFrom (p : Nat → Checked Bool) (start stop : Nat) : Checked (Option Nat) :=
  if start < stop then do
    if ← p start then return some start else findFrom p (start + 1) stop
  else .ok none
termination_by stop - start

/-- The bytes of a value in a slot of its own. -/
def needle (layout : Layout) (length : Nat) (v : Value) : Checked Bytes := do
  let w ← encode layout v (zeros length)
  return w.bytes

/-- The number of the first item of an array, at or after `start`, that is stored as the given value
is. -/
def slotIndex? (item : Layout) (offset : Nat → Nat) (stride capacity : Nat) (b : Bytes) (v : Value)
    (start : Nat) : Checked (Option Nat) := do
  let wanted ← needle item stride v
  let matches? (i : Nat) : Checked Bool := do
    return (← slice b (offset i) (offset i + wanted.length)) == wanted
  findFrom matches? start (← slotCount stride capacity b)

/-- The number of the first key, at or after `start`, that is stored as the given one is. -/
def keyIndex? (key : Layout) (keyLength : Nat) (b : Bytes) (v : Value) (start : Nat) :
    Checked (Option Nat) := do
  let wanted ← needle key keyLength (lookupKey key v)
  let matches? (i : Nat) : Checked Bool := do
    match ← keySpan? keyLength b i with
    | none => return false
    | some span => return (← slice b span.start span.stop) == wanted
  findFrom matches? start (← readLength b 0)

/-- The number of the first item of an array, at or after `start`, that is stored as the given value
is.  In a dict, the number of the first such key. -/
def indexOf? (layout : Layout) (b : Bytes) (v : Value) (start : Nat) : Checked (Option Nat) :=
  match layout with
  | .array item stride capacity => slotIndex? item (itemOffset stride) stride capacity b v start
  | .packed p capacity => slotIndex? (.primitive p) (packedOffset p) p.width capacity b v start
  | .dict key keyLength _ => keyIndex? key keyLength b v start
  | _ => .ok none

/-- The layout and the span of the value of a dict under a key. -/
def entrySpan? (layout : Layout) (b : Bytes) (key : Value) : Checked (Option (Layout × Span)) :=
  match layout with
  | .dict keyLayout keyLength value => do
    match ← keyIndex? keyLayout keyLength b key 0 with
    | none => return none
    | some i => return (← vectorSpan? b i).map (value, ·)
  | _ => .ok none

/-! ## Every span is found -/

variable {b : Bytes}

theorem slot?_ok (offset : Nat → Nat) (stride capacity : Nat) (b : Bytes) (i : Nat) :
    slot? offset stride capacity b i
      = .ok (if i < Layout.slotCount stride capacity b then some ⟨offset i, stride⟩ else none) := by
  rw [slot?, slotCount_ok, ok_bind]
  split_ifs <;> rfl

theorem storedSpan?_ok (b : Bytes) (start stop : Option Nat) :
    storedSpan? b start stop = .ok (Layout.storedSpan? b start stop) := by
  cases start with
  | none => rfl
  | some start =>
    cases stop with
    | none => rfl
    | some stop =>
      have hmodel : Layout.storedSpan? b (some start) (some stop)
          = if stop ≤ b.length then Span.between? start stop else none := rfl
      rw [storedSpan?, hmodel, Span.between?]
      by_cases hspan : stop ≤ start ∨ b.length < stop
      · rw [if_pos hspan]
        split_ifs with hstop hlt
        · omega
        · rfl
        · rfl
      · rw [if_neg hspan, if_pos (by omega), if_pos (by omega), subtract_ok (by omega)]
        rfl

theorem vectorSpan?_ok (b : Bytes) (i : Nat) :
    vectorSpan? b i = .ok (Layout.vectorSpan? b i) := by
  rw [vectorSpan?, readLength_ok, ok_bind, Layout.vectorSpan?, storedCount]
  split_ifs
  · rw [readOffset?_ok, readOffset?_ok]
    exact storedSpan?_ok _ _ _
  · rfl

theorem vectorEnd_ok (b : Bytes) : vectorEnd b = .ok (Layout.vectorEnd b) := by
  rw [vectorEnd, readLength_ok, ok_bind, readLength_ok]
  rfl

theorem keysOffset_ok (b : Bytes) : keysOffset b = .ok (Layout.keysOffset b) := by
  rw [keysOffset, vectorEnd_ok, ok_bind, readLength_ok]
  rfl

/-- A key lies inside the byte string if and only if it is counted. -/
theorem lt_keyCount_iff (keyLength : Nat) (b : Bytes) (i : Nat) :
    i < keyCount keyLength b ↔ i < storedCount b ∧ (keySpan keyLength b i).Fits b := by
  unfold keyCount Span.Fits Span.stop keySpan
  dsimp only
  split_ifs with hzero hoffset
  · rw [hzero]
    omega
  · rw [hzero]
    omega
  · have hpos : 0 < keyLength := Nat.pos_of_ne_zero hzero
    have hdiv : i < (b.length - Layout.keysOffset b) / keyLength
        ↔ (i + 1) * keyLength ≤ b.length - Layout.keysOffset b := Nat.le_div_iff_mul_le hpos
    rw [lt_min_iff, hdiv, Nat.succ_mul]
    omega

theorem keyCount_le (keyLength : Nat) (b : Bytes) : keyCount keyLength b ≤ storedCount b :=
  le_of_not_gt fun h => absurd ((lt_keyCount_iff keyLength b _).mp h).1 (lt_irrefl _)

theorem keySpan?_ok (keyLength : Nat) (b : Bytes) (i : Nat) :
    keySpan? keyLength b i
      = .ok (if i < keyCount keyLength b then some (keySpan keyLength b i) else none) := by
  have hiff := lt_keyCount_iff keyLength b i
  rw [keySpan?, keysOffset_ok, ok_bind, readLength_ok, ok_bind]
  by_cases hkey : i < keyCount keyLength b
  · rw [if_pos hkey]
    exact if_pos (hiff.mp hkey)
  · rw [if_neg hkey]
    exact if_neg fun h => hkey (hiff.mpr h)

theorem optionalSpan?_ok (table data : Nat) (b : Bytes) (ordinal : Nat) :
    optionalSpan? table data b ordinal = .ok (Layout.optionalSpan? table data b ordinal) := by
  have hstart : optionalStart? table data b ordinal = .ok (if ordinal = 0 then some data
      else storedOffset? b (table + (ordinal - 1) * Word.width)) := by
    rw [optionalStart?]
    split_ifs with hzero
    · rfl
    · rw [subtract_ok (Nat.pos_of_ne_zero hzero), ok_bind, readOffset?_ok]
  rw [optionalSpan?, hstart, ok_bind, readOffset?_ok, ok_bind, storedSpan?_ok]
  rfl

theorem itemCount_ok (layout : Layout) (b : Bytes) :
    itemCount layout b = .ok (Layout.itemCount layout b) := by
  cases layout with
  | array item stride capacity => exact slotCount_ok _ _ _
  | packed p capacity => exact slotCount_ok _ _ _
  | vector item limit => exact readLength_ok _ _
  | dict key keyLength value => exact readLength_ok _ _
  | _ => rfl

theorem itemSpan?_ok (layout : Layout) (b : Bytes) (i : Nat) :
    itemSpan? layout b i = .ok (Layout.itemSpan? layout b i) := by
  cases layout with
  | array item stride capacity =>
    rw [itemSpan?, slot?_ok]
    rfl
  | packed p capacity =>
    rw [itemSpan?, slot?_ok]
    rfl
  | vector item limit =>
    rw [itemSpan?, vectorSpan?_ok]
    rfl
  | dict key keyLength value =>
    rw [itemSpan?, vectorSpan?_ok]
    rfl
  | _ => rfl

theorem fieldSpan?_ok (layout : Layout) (b : Bytes) (i : Nat) :
    fieldSpan? layout b i = .ok (Layout.fieldSpan? layout b i) := by
  cases layout with
  | map fields =>
    rw [fieldSpan?, Layout.fieldSpan?]
    cases fields[i]? with
    | none => rfl
    | some f =>
      dsimp only [Option.bind_eq_bind, Option.bind_some]
      cases f.place with
      | fixed span => rfl
      | optional k =>
        dsimp only
        rw [optionalSpan?_ok, ok_bind]
        cases Layout.optionalSpan? (fixedRegion fields) (dataStart fields) b k <;> rfl
  | _ => rfl

theorem usedLength_ok (layout : Layout) (b : Bytes) :
    usedLength layout b = .ok (Layout.usedLength layout b) := by
  cases layout with
  | vector item limit =>
    rw [usedLength, vectorEnd_ok]
    rfl
  | dict key keyLength value =>
    rw [usedLength, keysOffset_ok, readLength_ok]
    rfl
  | map fields =>
    rw [usedLength, readLength_ok]
    rfl
  | _ => rfl

/-! ## Decoding never faults -/

theorem contentText_ok (b : Bytes) : contentText b = .ok (Layout.contentText b) := by
  have htake : b.take (b.findIdx (· == 0)) = b.takeWhile fun byte => byte != 0 := by
    rw [List.takeWhile_eq_take_findIdx_not]
    simp only [bne, Bool.not_not]
  rw [contentText, slice_front List.findIdx_le_length, htake]
  rfl

theorem contentBytes_ok (cap : Option Nat) (b : Bytes) :
    contentBytes cap b = .ok (Layout.contentBytes cap b) := by
  have htake : b.take (capped cap b.length) = b.take (cap.getD b.length) := by
    cases cap with
    | none => rfl
    | some n =>
      rw [capped, Nat.min_comm]
      exact List.take_eq_take_min.symm
  rw [contentBytes, slice_front (capped_le cap b.length), htake]
  rfl

section Parts

variable {decode : Bytes → Checked Value} {g : Bytes → Value}

theorem decodeSpan?_ok (hdecode : ∀ b, decode b = .ok (g b)) {span? : Option Span}
    (hfits : ∀ span, span? = some span → span.Fits b) :
    decodeSpan? decode b span? = .ok (span?.map fun span => g (span.slice b)) := by
  cases span? with
  | none => rfl
  | some span =>
    rw [decodeSpan?, slice_ok (hfits span rfl), ok_bind, hdecode]
    rfl

theorem vectorItems_ok (hdecode : ∀ b, decode b = .ok (g b)) (b : Bytes) :
    vectorItems decode b = .ok ((List.range (storedCount b)).map fun i =>
      ((Layout.vectorSpan? b i).map fun span => g (span.slice b)).getD .null) := by
  rw [vectorItems, readLength_ok, ok_bind]
  apply mapM_ok
  intro i _
  rw [vectorSpan?_ok, ok_bind, decodeSpan?_ok hdecode fun span => Window.vectorSpan?_fits]
  rfl

/-- The entries of a dict are those whose keys are counted. -/
theorem takeEntries_ok {name : Bytes → Checked String} {key : Bytes → String}
    (hname : ∀ b, name b = .ok (key b)) (keyLength : Nat) (b : Bytes) (value : Nat → Value)
    (n i : Nat) (out : List (String × Value)) :
    takeEntries name keyLength b ((List.range' i n).map value) i out
      = .ok (((List.range' i (min n (keyCount keyLength b - i))).map fun j =>
          (key ((keySpan keyLength b j).slice b), value j)).foldl
        (fun fields e => Value.insertNewField e.1 e.2 fields) out) := by
  induction n generalizing i out with
  | zero =>
    rw [Nat.zero_min]
    rfl
  | succ n ih =>
    rw [List.range'_succ, List.map_cons, takeEntries, keySpan?_ok, ok_bind]
    by_cases hkey : i < keyCount keyLength b
    · have hfits := ((lt_keyCount_iff keyLength b i).mp hkey).2
      have hcount : min (n + 1) (keyCount keyLength b - i)
          = min n (keyCount keyLength b - (i + 1)) + 1 := by omega
      rw [if_pos hkey, hcount, List.range'_succ, List.map_cons, List.foldl_cons]
      dsimp only
      rw [slice_ok hfits, ok_bind, hname, ok_bind, ih]
    · have hcount : min (n + 1) (keyCount keyLength b - i) = 0 := by omega
      rw [if_neg hkey, hcount]
      rfl

end Parts

/-- Decoding does not fault. -/
def Decodes (layout : Layout) : Prop := ∀ b, decode layout b = .ok (Layout.decode layout b)

variable {fields : List (Field Layout)}

theorem decodeFixed_ok (hparts : ∀ f ∈ fields, Decodes f.layout) (b : Bytes)
    (out : List (String × Value)) :
    decodeFixed fields b out = .ok (Layout.decodeFixed fields b out) := by
  induction fields generalizing out with
  | nil => rw [decodeFixed, Layout.decodeFixed]
  | cons f rest ih =>
    have hrest := ih fun g hg => hparts g (List.mem_cons_of_mem _ hg)
    rw [decodeFixed, Layout.decodeFixed]
    cases f.place with
    | optional k => exact hrest out
    | fixed span =>
      dsimp only
      cases span.slice? b with
      | none => exact hrest _
      | some slot =>
        dsimp only
        rw [hparts f List.mem_cons_self]
        exact hrest _

theorem decodeOptional_ok (hparts : ∀ f ∈ fields, Decodes f.layout) (table data : Nat) (b : Bytes)
    (out : List (String × Value)) :
    decodeOptional table data fields b out
      = .ok (Layout.decodeOptional table data fields b out) := by
  induction fields generalizing out with
  | nil => rw [decodeOptional, Layout.decodeOptional]
  | cons f rest ih =>
    have hrest := ih fun g hg => hparts g (List.mem_cons_of_mem _ hg)
    rw [decodeOptional, Layout.decodeOptional]
    cases f.place with
    | fixed span => exact hrest out
    | optional k =>
      have hfits : ∀ span, Layout.optionalSpan? table data b k = some span → span.Fits b :=
        fun span h => Layout.storedSpan?_fits h
      dsimp only
      rw [optionalSpan?_ok, ok_bind, decodeSpan?_ok (hparts f List.mem_cons_self) hfits, ok_bind]
      cases Layout.optionalSpan? table data b k with
      | none => exact hrest out
      | some span => exact hrest _

/-- **Decoding.**  No byte string makes the decoder of a layout fault. -/
theorem decode_ok {layout : Layout} (h : layout.WellFormed) : Decodes layout := by
  induction h with
  | primitive p =>
    intro b
    rw [decode, Layout.decode, readNumber_ok]
  | text cap =>
    intro b
    rw [decode, Layout.decode, contentText_ok]
    rfl
  | blob cap =>
    intro b
    rw [decode, Layout.decode, contentBytes_ok]
    rfl
  | @array item stride capacity hitem hstride ih =>
    intro b
    have hitems : ((List.range (Layout.slotCount stride capacity b)).mapM fun i => do
        decodeSpan? (fun bytes => decode item bytes) b
          (← slot? (itemOffset stride) stride capacity b i))
        = .ok ((List.range (Layout.slotCount stride capacity b)).map fun i =>
          (slotSpan? stride capacity b i).map fun span => Layout.decode item (span.slice b)) := by
      apply mapM_ok
      intro i hi
      rw [slot?_ok, ok_bind]
      apply decodeSpan?_ok ih
      intro span hspan
      rw [if_pos (List.mem_range.mp hi), Option.some.injEq] at hspan
      rw [← hspan]
      exact fits_slot (List.mem_range.mp hi)
    rw [decode, Layout.decode, slotCount_ok, ok_bind, hitems, ok_bind, List.filterMap_map]
    rfl
  | packed p capacity =>
    intro b
    have hitems : ((List.range (Layout.slotCount p.width capacity b)).mapM fun i => do
        readNumber p (← slice b (packedOffset p i) b.length))
        = .ok ((List.range (Layout.slotCount p.width capacity b)).map fun i =>
          p.read (b.drop (packedOffset p i))) := by
      apply mapM_ok
      intro i hi
      have hfits : packedOffset p i + p.width ≤ b.length :=
        Window.fits_packed (List.mem_range.mp hi)
      rw [slice_back (by omega), ok_bind, readNumber_ok]
    rw [decode, Layout.decode, slotCount_ok, ok_bind, hitems]
    rfl
  | @vector item limit hitem ih =>
    intro b
    rw [decode, decode_vector, vectorItems_ok ih]
    rfl
  | @dict key value keyLength hkey hlength hvalue ihkey ihvalue =>
    intro b
    have hname : ∀ bytes, (do return keyText key (← decode key bytes))
        = (.ok (keyText key (Layout.decode key bytes)) : Checked String) := by
      intro bytes
      rw [ihkey bytes]
      rfl
    have hcount : min (storedCount b) (keyCount keyLength b - 0) = keyCount keyLength b :=
      Nat.min_eq_right (keyCount_le keyLength b)
    rw [decode, Layout.decode, vectorItems_ok ihvalue, ok_bind, List.range_eq_range']
    dsimp only
    rw [takeEntries_ok hname, hcount, ok_bind, ← List.range_eq_range']
    have hentry : ∀ i, (keyText key (Layout.decode key ((keySpan keyLength b i).slice b)),
        ((Layout.vectorSpan? b i).map fun span => Layout.decode value (span.slice b)).getD .null)
        = match Layout.vectorSpan? b i with
          | none => (keyText key (Layout.decode key ((keySpan keyLength b i).slice b)), .null)
          | some span => (keyText key (Layout.decode key ((keySpan keyLength b i).slice b)),
            Layout.decode value (span.slice b)) := by
      intro i
      cases Layout.vectorSpan? b i <;> rfl
    rw [funext hentry]
    rfl
  | object hparts harranged hfixed hnames ih =>
    intro b
    rw [decode, Layout.decode, decodeFixed_ok ih]
    rfl
  | map hparts harranged hnames ih =>
    intro b
    rw [decode, Layout.decode, decodeFixed_ok ih, ok_bind, decodeOptional_ok ih]
    rfl

/-! ## Searching never faults -/

theorem findFrom_ok {p : Nat → Checked Bool} {q : Nat → Bool} {start stop : Nat}
    (h : ∀ i, start ≤ i → i < stop → p i = .ok (q i)) :
    findFrom p start stop = .ok (firstFrom q start (stop - start)) := by
  obtain ⟨n, hn⟩ : ∃ n, stop - start = n := ⟨_, rfl⟩
  rw [hn]
  induction n generalizing start with
  | zero => rw [findFrom, if_neg (by omega), firstFrom]
  | succ n ih =>
    have hrest : findFrom p (start + 1) stop = .ok (firstFrom q (start + 1) n) :=
      ih (fun i hi => h i (Nat.le_of_succ_le hi)) (by omega)
    rw [findFrom, if_pos (by omega), h start (le_refl _) (by omega), ok_bind, firstFrom, hrest]
    split_ifs <;> rfl

/-- Nothing is found behind the numbers that can have the property. -/
theorem firstFrom_of_le {p q : Nat → Bool} {m n : Nat} (hmn : n ≤ m) (hp : ∀ i, i < n → p i = q i)
    (hnone : ∀ i, n ≤ i → p i = false) (start : Nat) :
    firstFrom p start (m - start) = firstFrom q start (n - start) := by
  obtain ⟨k, hk⟩ : ∃ k, m - start = k := ⟨_, rfl⟩
  rw [hk]
  induction k generalizing start with
  | zero =>
    rw [show n - start = 0 by omega, firstFrom, firstFrom]
  | succ k ih =>
    rw [firstFrom, ih (start + 1) (by omega)]
    rcases Nat.lt_or_ge start n with hlt | hge
    · rw [hp start hlt, show n - start = n - (start + 1) + 1 by omega, firstFrom]
    · rw [hnone start hge, show n - start = 0 by omega, show n - (start + 1) = 0 by omega]
      rfl

theorem needle_ok {layout : Layout} (h : Writes layout) (length : Nat) (v : Value) :
    needle layout length v = .ok (Layout.needle layout length v) := by
  rw [needle, encode, h.write]
  rfl

theorem length_needle {layout : Layout} (h : layout.KeepsLength) (length : Nat) (v : Value) :
    (Layout.needle layout length v).length = length := by
  rw [Layout.needle, Layout.encode, (h.1 .cleared v _).1, length_zeros]

/-- All slots that are compared fit. -/
theorem slotIndex?_ok {item : Layout} (hitem : item.WellFormed) {offset : Nat → Nat}
    {stride capacity : Nat}
    (hfits : ∀ i, i < Layout.slotCount stride capacity b → (⟨offset i, stride⟩ : Span).Fits b)
    (v : Value) (start : Nat) :
    slotIndex? item offset stride capacity b v start
      = .ok (firstFrom (fun i => Span.slice ⟨offset i, stride⟩ b == Layout.needle item stride v)
        start (Layout.slotCount stride capacity b - start)) := by
  rw [slotIndex?, needle_ok (writes hitem), ok_bind, slotCount_ok]
  dsimp only
  rw [ok_bind, length_needle hitem.keepsLength]
  apply findFrom_ok
  intro i _ hi
  have hslice := slice_ok (hfits i hi)
  rw [Span.stop] at hslice
  rw [hslice]
  rfl

/-- Only keys that are counted are compared. -/
theorem keyIndex?_ok {key : Layout} (hkey : key.WellFormed) (keyLength : Nat) (b : Bytes)
    (v : Value) (start : Nat) :
    keyIndex? key keyLength b v start = .ok (Layout.keyIndex? key keyLength b v start) := by
  obtain ⟨wanted, hwanted⟩ : ∃ w, Layout.needle key keyLength (lookupKey key v) = w := ⟨_, rfl⟩
  rw [keyIndex?, needle_ok (writes hkey), ok_bind, readLength_ok, Layout.keyIndex?, hwanted]
  dsimp only
  rw [ok_bind, findFrom_ok (q := fun i => decide (i < keyCount keyLength b)
    && (keySpan keyLength b i).slice b == wanted)]
  · apply congrArg
    apply firstFrom_of_le (keyCount_le keyLength b)
    · intro i hi
      rw [decide_eq_true hi, Bool.true_and]
    · intro i hi
      rw [decide_eq_false (Nat.not_lt.mpr hi), Bool.false_and]
  · intro i _ _
    rw [keySpan?_ok, ok_bind]
    by_cases hi : i < keyCount keyLength b
    · rw [if_pos hi]
      dsimp only
      rw [slice_ok ((lt_keyCount_iff keyLength b i).mp hi).2, decide_eq_true hi, Bool.true_and]
      rfl
    · rw [if_neg hi, decide_eq_false hi, Bool.false_and]
      rfl

theorem indexOf?_ok {layout : Layout} (h : layout.WellFormed) (b : Bytes) (v : Value)
    (start : Nat) : indexOf? layout b v start = .ok (Layout.indexOf? layout b v start) := by
  cases h with
  | array capacity hitem hstride => exact slotIndex?_ok hitem (fun i hi => fits_slot hi) v start
  | packed p capacity =>
    exact slotIndex?_ok (.primitive p) (fun i hi => Window.fits_packed hi) v start
  | dict hkey hlength hvalue => exact keyIndex?_ok hkey _ b v start
  | _ => rfl

theorem entrySpan?_ok {layout : Layout} (h : layout.WellFormed) (b : Bytes) (k : Value) :
    entrySpan? layout b k = .ok (Layout.entrySpan? layout b k) := by
  cases h with
  | @dict key value keyLength hkey hlength hvalue =>
    rw [entrySpan?, Layout.entrySpan?, keyIndex?_ok hkey, ok_bind]
    cases Layout.keyIndex? key keyLength b k 0 with
    | none => rfl
    | some i =>
      dsimp only [Option.bind_eq_bind, Option.bind_some]
      rw [vectorSpan?_ok, ok_bind]
      cases Layout.vectorSpan? b i <;> rfl
  | _ => rfl

end Checked

end Layout

end BinarySchema
