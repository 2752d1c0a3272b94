/-
# Writing never faults

The writers once more, built from operations that can fault.  Every slice is taken where the bytes
are rewritten, and the sizes of parts are found where they are needed.

For a well-formed layout they give what the writers of the library give, whatever the value and
however few bytes there are (`writes`).
-/
import BinarySchema.Proofs.CheckedSlots
import BinarySchema.Proofs.Write

namespace BinarySchema

namespace Layout

namespace Checked

open BinarySchema.Checked

/-! ## Sizes -/

/-- The items of a vector that its limit admits. -/
def admitted (limit : Option Nat) (items : List Value) : Checked (List Value) :=
  match limit with
  | none => .ok items
  | some n => if n < items.length then front items n else .ok items

theorem admitted_ok (limit : Option Nat) (items : List Value) :
    admitted limit items = .ok (Layout.admitted limit items) := by
  cases limit with
  | none => rfl
  | some n =>
    rw [admitted, Layout.admitted]
    split_ifs with hn
    · exact front_ok (le_of_lt hn)
    · rw [List.take_of_length_le (by omega)]

mutual

/-- The number of bytes that a value needs in full. -/
def encodedLength : Layout → Value → Checked Nat
  | .primitive p, _ => .ok p.width
  | .text cap, v | .blob cap, v => .ok (capped cap v.bytes.length)
  | .array _ stride capacity, _ => .ok (capacity * stride)
  | .packed p capacity, _ => .ok (packedLength p capacity)
  | .vector item limit, v => do
    let items ← admitted limit v.items
    let sizes ← items.mapM fun i => if i.isNull then .ok 0 else encodedLength item i
    return headerLength items.length + sizes.sum
  | .dict _ keyLength value, v => do
    let values := v.fields.map (·.2)
    let sizes ← values.mapM fun i => if i.isNull then .ok 0 else encodedLength value i
    return dictOverhead keyLength values.length + sizes.sum
  | .object fields, _ => .ok (fixedRegion fields)
  | .map fields, v => do return dataStart fields + (← optionalsLength fields v)

/-- The number of bytes that the optional fields of a record need in full. -/
def optionalsLength : List (Field Layout) → Value → Checked Nat
  | [], _ => .ok 0
  | f :: rest, v => do
    let own ←
      match f.place, f.pick? v with
      | .optional _, some x => do pure (capped f.maxLength (← encodedLength f.layout x))
      | _, _ => .ok 0
    return own + (← optionalsLength rest v)

end

/-- The size of all items of a container that are not holes. -/
theorem itemSizes_ok {item : Layout}
    (hitem : ∀ v, encodedLength item v = .ok (Layout.encodedLength item v)) (items : List Value) :
    (items.mapM fun i => if i.isNull then .ok 0 else encodedLength item i)
      = .ok (items.map fun i => if i.isNull then 0 else Layout.encodedLength item i) := by
  apply mapM_ok
  intro i _
  split_ifs
  · rfl
  · exact hitem i

theorem optionalsLength_ok {fields : List (Field Layout)}
    (hparts : ∀ f ∈ fields, ∀ v, encodedLength f.layout v = .ok (Layout.encodedLength f.layout v))
    (v : Value) : optionalsLength fields v = .ok (Layout.optionalsLength fields v) := by
  induction fields with
  | nil => rw [optionalsLength, Layout.optionalsLength]
  | cons f rest ih =>
    have hrest := ih fun g hg => hparts g (List.mem_cons_of_mem _ hg)
    rw [optionalsLength, Layout.optionalsLength, hrest]
    cases f.place with
    | fixed span => rfl
    | optional k =>
      cases f.pick? v with
      | none => rfl
      | some x =>
        dsimp only
        rw [hparts f List.mem_cons_self x]
        rfl

theorem encodedLength_ok {layout : Layout} (h : layout.WellFormed) (v : Value) :
    encodedLength layout v = .ok (Layout.encodedLength layout v) := by
  induction h generalizing v with
  | vector limit hitem ih =>
    rw [encodedLength, Layout.encodedLength, admitted_ok, ok_bind, itemSizes_ok ih]
    rfl
  | dict hkey hlength hvalue ihkey ihvalue =>
    rw [encodedLength, Layout.encodedLength, itemSizes_ok ihvalue]
    rfl
  | map hparts harranged hnames ih =>
    rw [encodedLength, Layout.encodedLength, optionalsLength_ok ih]
    rfl
  | _ => rw [encodedLength, Layout.encodedLength]

/-! ## All layouts -/

/-- Writes the content of a text or blob, and zeros up to the cap. -/
def writeContent (cap : Option Nat) (content b : Bytes) : Checked Written := do
  let length := min (capped cap content.length) b.length
  let filled := min (cap.getD length) b.length
  let source ← front content length
  let w ← onSlice b 0 length (copy source)
  let w ← onSlice w.bytes length filled fill
  return ⟨w.bytes, filled⟩

/-- Puts the first `n` bytes of `new` over the front of `b`, as far as `b` reaches. -/
def overlay (n : Nat) (new b : Bytes) : Checked Bytes := do
  let source ← front new (min n b.length)
  let w ← onSlice b 0 (min n b.length) (copy source)
  return w.bytes

/-- Fills the first `n` bytes with zeros, as far as there are any. -/
def clear (n : Nat) (b : Bytes) : Checked Bytes := do
  let w ← onSlice b 0 (min n b.length) fill
  return w.bytes

mutual

/-- Writes a value to the front of a byte string. -/
def write (u : Unsupplied) : Layout → Value → Bytes → Checked Written
  | .primitive p, v, b =>
    if p.width ≤ b.length then onSlice b 0 p.width (writeNumber p v) else .ok (.nothing b)
  | .text cap, v, b | .blob cap, v, b => writeContent cap v.bytes b
  | .array item stride capacity, v, b =>
    let region := min (capacity * stride) b.length
    let put (i : Value) : Option (Bytes → Checked Written) :=
      if i.isNull then none else some fun slot => write u item i slot
    onSlice b 0 region fun r => do
      let r := u.prepare r
      let count ← slotCount stride capacity r
      return ⟨← writeSlots (itemOffset stride) stride put (v.items.take count) 0 r, region⟩
  | .packed p capacity, v, b =>
    let region := min (packedLength p capacity) b.length
    onSlice b 0 region fun r => do
      let r ← fill r
      let count ← slotCount p.width capacity r.bytes
      let put (i : Value) : Option (Bytes → Checked Written) := some (writeNumber p i)
      return ⟨← writeSlots (packedOffset p) p.width put (v.items.take count) 0 r.bytes, region⟩
  | .vector item limit, v, b => do
    let items ← admitted limit v.items
    writeVector (fun i => encodedLength item i)
      (fun i slot => do write .kept item i (← seed item slot)) items b
  | .dict key keyLength value, v, b =>
    writeDict (fun i => encodedLength value i)
      (fun i slot => do write .kept value i (← seed value slot)) keyLength
      (fun k slot => write .cleared key (keyValue key k) slot) v.fields b
  | .object fields, v, b =>
    let region := fixedRegion fields
    if b.length < region then .ok (.nothing b)
    else onSlice b 0 region fun r => do return ⟨← writeFixed fields v (u.prepare r), region⟩
  | .map fields, v, b =>
    let region := fixedRegion fields
    if b.length < dataStart fields then .ok (.nothing b)
    else do
      let fixed ← onSlice b 0 region fun r => do
        return ⟨← writeFixed fields v (u.prepare r), region⟩
      let w ← writeParts (optionalPortions region fields v) ⟨fixed.bytes, dataStart fields⟩
      return ⟨← storeWord w.length w.bytes (usedLengthOffset fields), w.length⟩

/-- Seeds the region of a value with the defaults of the layout. -/
def seed : Layout → Bytes → Checked Bytes
  | .object fields, b | .map fields, b => do
    let template ← writeDefaults fields (zeros (fixedRegion fields))
    overlay (fixedRegion fields) template b
  | .array item stride capacity, b => do
    let count ← slotCount stride capacity b
    let put (slot : Bytes) : Checked Written := do return ⟨← seed item slot, stride⟩
    writeSlots (itemOffset stride) stride (fun _ => some put) (List.range count) 0 b
  | layout, b => clear (layout.fixedLength?.getD 0) b

/-- Writes those fields at fixed places that the record has. -/
def writeFixed : List (Field Layout) → Value → Bytes → Checked Bytes
  | [], _, b => .ok b
  | f :: rest, v, b => do
    let b ←
      match f.place, v.get? f.name with
      | .fixed span, some x => do
        let w ← onSlice b span.start span.stop fun slot => write .kept f.layout x slot
        pure w.bytes
      | _, _ => .ok b
    writeFixed rest v b

/-- The parts of the optional fields of a record, with the offsets of their entries in the table at
`table`. -/
def optionalPortions (table : Nat) :
    List (Field Layout) → Value → List (Nat × Checked (Option Portion))
  | [], _ => []
  | f :: rest, v =>
    match f.place with
    | .fixed _ => optionalPortions table rest v
    | .optional ordinal =>
      let part : Checked (Option Portion) :=
        match f.pick? v with
        | none => .ok none
        | some x => do
          let need := capped f.maxLength (← encodedLength f.layout x)
          if 0 < need then
            return some ⟨need, fun slot => do write .kept f.layout x (← seed f.layout slot)⟩
          else return none
      (table + ordinal * Word.width, part) :: optionalPortions table rest v

/-- Writes the defaults of the fields at fixed places: the defaults inside each field first, and
over them the default of the field itself. -/
def writeDefaults : List (Field Layout) → Bytes → Checked Bytes
  | [], b => .ok b
  | f :: rest, b => do
    let b ←
      match f.place with
      | .optional _ => .ok b
      | .fixed span => do
        let w ← onSlice b span.start span.stop fun slot => do
          let seeded ← seed f.layout slot
          match f.default with
          | none => return ⟨seeded, span.length⟩
          | some x => write .kept f.layout x seeded
        pure w.bytes
    writeDefaults rest b

end

/-- Writes a value, with zeros for what it does not supply. -/
def encode (layout : Layout) (v : Value) (b : Bytes) : Checked Written := write .cleared layout v b

/-- Writes a value, keeping the bytes of what it does not supply. -/
def amend (layout : Layout) (v : Value) (b : Bytes) : Checked Written := write .kept layout v b

/-- Writes a value over the defaults of the layout. -/
def encodeOver (layout : Layout) (v : Value) (b : Bytes) : Checked Written := do
  amend layout v (← seed layout b)

/-! ## The writers never fault -/

theorem writeContent_ok (cap : Option Nat) (content b : Bytes) :
    writeContent cap content b = .ok (Layout.writeContent cap content b) := by
  have hfilled := content_le_filled cap content.length b.length
  have hcontent := capped_le cap content.length
  rw [writeContent, Layout.writeContent]
  obtain ⟨length, hlength⟩ : ∃ n, min (capped cap content.length) b.length = n := ⟨_, rfl⟩
  rw [hlength] at hfilled ⊢
  obtain ⟨filled, hfilledEq⟩ : ∃ n, min (cap.getD length) b.length = n := ⟨_, rfl⟩
  rw [hfilledEq] at hfilled ⊢
  have hsource : (content.take length).length = length := by
    rw [List.length_take]
    omega
  have hplace : (b.take length).length = length := by
    rw [List.length_take]
    omega
  have hzeros : ((b.drop length).take (filled - length)).length = filled - length := by
    rw [List.length_take, List.length_drop]
    omega
  -- what stands behind the content is filled up to the cap, and the rest stays
  have hrest : b.drop length = (b.drop length).take (filled - length) ++ b.drop filled := by
    have hdrop : (b.drop length).drop (filled - length) = b.drop filled := by
      rw [List.drop_drop, Nat.add_sub_cancel' hfilled]
    rw [← hdrop, List.take_append_drop]
  have hstop : length + ((b.drop length).take (filled - length)).length = filled := by
    rw [hzeros]
    omega
  have hfill := onSlice_middle (f := fill) (c := b.drop filled) hsource hstop rfl
  rw [List.append_assoc, ← hrest] at hfill
  rw [front_ok (by omega), ok_bind, onSlice_front (by omega) (copy_ok (hsource.trans hplace.symm)),
    ok_bind, hfill, ok_bind, hzeros]
  rfl

theorem overlay_ok {n : Nat} {new : Bytes} (hnew : new.length = n) (b : Bytes) :
    overlay n new b = .ok (BinarySchema.overlay new b) := by
  have hsource : (new.take (min n b.length)).length = (b.take (min n b.length)).length := by
    rw [List.length_take, List.length_take]
    omega
  have htake : new.take (min n b.length) = new.take b.length := by
    rw [← hnew, Nat.min_comm]
    exact List.take_eq_take_min.symm
  have hdrop : b.drop (min n b.length) = b.drop n := List.drop_eq_drop_min.symm
  rw [overlay, front_ok (by omega), ok_bind, onSlice_front (by omega) (copy_ok hsource), ok_bind,
    htake, hdrop, BinarySchema.overlay, hnew]
  rfl

theorem clear_ok (n : Nat) (b : Bytes) :
    clear n b = .ok (onFront n (fun r => zeros r.length) b) := by
  have htake : b.take (min n b.length) = b.take n := List.take_eq_take_min.symm
  have hdrop : b.drop (min n b.length) = b.drop n := List.drop_eq_drop_min.symm
  rw [clear, onSlice_front (Nat.min_le_right _ _) rfl, htake, hdrop]
  rfl

/-- What is written to values of a layout without a fault is what the library writes. -/
structure Writes (layout : Layout) : Prop where
  /-- Writing a value. -/
  write : ∀ u v b, write u layout v b = .ok (Layout.write u layout v b)
  /-- Seeding a region. -/
  seed : ∀ b, seed layout b = .ok (Layout.seed layout b)

theorem Writes.encodeOver {layout : Layout} (h : Writes layout) :
    (fun v slot => do Checked.write .kept layout v (← Checked.seed layout slot))
      = fun v slot => .ok (Layout.encodeOver layout v slot) := by
  funext v slot
  rw [h.seed, ok_bind, h.write]
  rfl

variable {f : Field Layout} {fields : List (Field Layout)}

/-- Fields at places that fit are written without a fault. -/
theorem writeFixed_ok (hparts : ∀ f ∈ fields, Writes f.layout)
    (hkeeps : ∀ f ∈ fields, f.layout.KeepsLength) (v : Value) {b : Bytes} (hfit : AllFit fields b) :
    writeFixed fields v b = .ok (Layout.writeFixed fields v b) := by
  induction fields generalizing b with
  | nil => rw [writeFixed, Layout.writeFixed]
  | cons f rest ih =>
    have hrest := fun {b} => ih (b := b) (fun g hg => hparts g (List.mem_cons_of_mem _ hg))
      fun g hg => hkeeps g (List.mem_cons_of_mem _ hg)
    cases hf : f.place with
    | optional k =>
      rw [writeFixed, hf, Layout.writeFixed_cons_optional hf]
      exact hrest hfit.tail
    | fixed span =>
      cases hx : v.get? f.name with
      | none =>
        rw [writeFixed, hf, hx, Layout.writeFixed_cons_none hx]
        exact hrest hfit.tail
      | some x =>
        have hself := (hkeeps f List.mem_cons_self).1
        have hspan := onSlice_ok (f := fun slot => write .kept f.layout x slot)
          (hfit f List.mem_cons_self span hf) ((hparts f List.mem_cons_self).write _ _ _)
        rw [writeFixed, hf, hx, Layout.writeFixed_cons_some hf hx]
        dsimp only
        rw [hspan]
        apply hrest
        exact hfit.tail.of_length (Span.length_modify fun slot => (hself .kept x slot).1)

theorem writeDefaults_ok (hparts : ∀ f ∈ fields, Writes f.layout)
    (hkeeps : ∀ f ∈ fields, f.layout.KeepsLength) {b : Bytes} (hfit : AllFit fields b) :
    writeDefaults fields b = .ok (Layout.writeDefaults fields b) := by
  induction fields generalizing b with
  | nil => rw [writeDefaults, Layout.writeDefaults]
  | cons f rest ih =>
    have hrest := fun {b} => ih (b := b) (fun g hg => hparts g (List.mem_cons_of_mem _ hg))
      fun g hg => hkeeps g (List.mem_cons_of_mem _ hg)
    cases hf : f.place with
    | optional k =>
      rw [writeDefaults, hf, Layout.writeDefaults_cons_optional hf]
      exact hrest hfit.tail
    | fixed span =>
      have hself := hkeeps f List.mem_cons_self
      have hpart := hparts f List.mem_cons_self
      have hfits := hfit f List.mem_cons_self span hf
      rw [writeDefaults, hf, Layout.writeDefaults_cons_fixed hf]
      cases f.default with
      | none =>
        dsimp only
        rw [onSlice_ok (w := ⟨Layout.seed f.layout (span.slice b), span.length⟩) hfits]
        · apply hrest
          exact hfit.tail.of_length (Span.length_modify hself.2)
        · rw [hpart.seed]
          rfl
      | some x =>
        dsimp only
        rw [onSlice_ok (w := Layout.encodeOver f.layout x (span.slice b)) hfits]
        · apply hrest
          exact hfit.tail.of_length (Span.length_modify fun slot => (hself.encodeOver x slot).1)
        · rw [hpart.seed, ok_bind, hpart.write]
          rfl

/-- The parts of optional fields are written without a fault. -/
theorem optionalPortions_ok (hparts : ∀ f ∈ fields, Writes f.layout)
    (hsizes : ∀ f ∈ fields, ∀ v, encodedLength f.layout v = .ok (Layout.encodedLength f.layout v))
    (table : Nat) (v : Value) :
    optionalPortions table fields v
      = (optionalEntries table fields v).map fun e => (e.1, .ok (e.2.map Portion.ofPart)) := by
  induction fields with
  | nil => rw [optionalPortions]; rfl
  | cons f rest ih =>
    have hrest := ih (fun g hg => hparts g (List.mem_cons_of_mem _ hg))
      fun g hg => hsizes g (List.mem_cons_of_mem _ hg)
    rw [optionalPortions]
    cases hf : f.place with
    | fixed span =>
      rw [optionalEntries_cons_fixed hf]
      exact hrest
    | optional k =>
      rw [optionalEntries_cons_optional hf, List.map_cons, ← hrest, optionalPart]
      dsimp only
      congr 2
      cases f.pick? v with
      | none => rfl
      | some x =>
        have hput := congrFun (hparts f List.mem_cons_self).encodeOver x
        dsimp only at hput ⊢
        rw [hsizes f List.mem_cons_self, ok_bind, hput, Option.bind_some]
        split_ifs <;> rfl

/-- Fields at fixed places are written to the front of a byte string that is long enough. -/
theorem onSlice_writeFixed (hparts : ∀ f ∈ fields, Writes f.layout)
    (hkeeps : ∀ f ∈ fields, f.layout.KeepsLength) (u : Unsupplied) (v : Value) {b : Bytes}
    (hroom : fixedRegion fields ≤ b.length) :
    onSlice b 0 (fixedRegion fields)
        (fun r => do return ⟨← writeFixed fields v (u.prepare r), fixedRegion fields⟩)
      = .ok ⟨onFront (fixedRegion fields) (fun r => Layout.writeFixed fields v (u.prepare r)) b,
        fixedRegion fields⟩ := by
  have hfit : AllFit fields (u.prepare (b.take (fixedRegion fields))) := by
    apply allFit_of_length
    rw [length_prepare, List.length_take, Nat.min_eq_left hroom]
  rw [onSlice_front (w := ⟨Layout.writeFixed fields v (u.prepare (b.take (fixedRegion fields))),
    fixedRegion fields⟩) hroom]
  · rfl
  · rw [writeFixed_ok hparts hkeeps v hfit]
    rfl

/-- Defaults are put over the front of a byte string. -/
theorem seedRecord_ok (hparts : ∀ f ∈ fields, Writes f.layout)
    (hkeeps : ∀ f ∈ fields, f.layout.KeepsLength) (b : Bytes) :
    (do overlay (fixedRegion fields) (← writeDefaults fields (zeros (fixedRegion fields))) b)
      = .ok (BinarySchema.overlay (template fields) b) := by
  have hfit : AllFit fields (zeros (fixedRegion fields)) := allFit_of_length (length_zeros _)
  rw [writeDefaults_ok hparts hkeeps hfit, ok_bind]
  exact overlay_ok (by rw [length_writeDefaults hkeeps, length_zeros]) b

/-- A layout that has no defaults of its own is seeded without a fault. -/
theorem seed_ok_of_zeros {layout : Layout} (hfields : layout.fields? = none)
    (harray : ∀ item stride capacity, layout ≠ .array item stride capacity) (b : Bytes) :
    seed layout b = .ok (Layout.seed layout b) := by
  rw [seed_eq_onFront hfields harray, ← clear_ok]
  cases layout with
  | object fields => cases hfields
  | map fields => cases hfields
  | array item stride capacity => exact absurd rfl (harray item stride capacity)
  | _ => rw [seed] <;> simp

/-- An item of an array is written to its slot, and a hole leaves the slot as it is. -/
theorem rewrites_item {item : Layout} (hitem : Writes item) (hkeep : item.KeepsLength)
    (u : Unsupplied) (i : Value) (slot : Bytes) :
    Rewrites (if i.isNull then none else some fun slot => write u item i slot)
      (fun slot => if i.isNull then slot else (Layout.write u item i slot).bytes) slot := by
  unfold Rewrites
  split_ifs
  · exact ⟨rfl, rfl⟩
  · exact ⟨(hkeep.1 u i slot).1, _, hitem.write u i slot⟩

theorem writes_array {item : Layout} (hitem : Writes item) (hkeep : item.KeepsLength)
    (stride capacity : Nat) : Writes (.array item stride capacity) where
  write u v b := by
    have hcount : ∀ r : Bytes, Layout.slotCount stride capacity (u.prepare r)
        = Layout.slotCount stride capacity r := by
      intro r
      rw [Layout.slotCount, Layout.slotCount, length_prepare]
    rw [write, Layout.write]
    dsimp only
    rw [onSlice_front (w := ⟨onSlots stride _ (u.prepare _), _⟩) (Nat.min_le_right _ _)]
    · rfl
    · rw [slotCount_ok, ok_bind, hcount, writeSlots_front (f := fun i slot =>
        if i.isNull then slot else (Layout.write u item i slot).bytes)]
      · rfl
      · exact fun i _ slot _ => rewrites_item hitem hkeep u i slot
      · exact fun j _ => rfl
      · rw [List.length_take, ← hcount]
        exact le_trans (Nat.mul_le_mul_right _ (Nat.min_le_left _ _)) (slotCount_mul_le _ _ _)
  seed b := by
    rw [seed, Layout.seed, slotCount_ok, ok_bind,
      writeSlots_front (f := fun _ slot => Layout.seed item slot), List.map_const',
      List.length_range]
    · intro i _ slot _
      refine ⟨hkeep.2 slot, stride, ?_⟩
      dsimp only
      rw [hitem.seed]
      rfl
    · exact fun j _ => rfl
    · rw [List.length_range]
      exact slotCount_mul_le _ _ _

theorem writes_packed (p : Primitive) (capacity : Nat) : Writes (.packed p capacity) where
  write u v b := by
    rw [write, Layout.write]
    dsimp only
    rw [onSlice_front (w := ⟨onSlots p.width _ (zeros _), _⟩) (Nat.min_le_right _ _)]
    · rfl
    · have hregion : (b.take (min (packedLength p capacity) b.length)).length < UInt64.size := by
        have hlt : packedLength p capacity < UInt64.size := Nat.mod_lt _ (by decide)
        rw [List.length_take]
        omega
      generalize b.take (min (packedLength p capacity) b.length) = r at hregion ⊢
      have hcount : Layout.slotCount p.width capacity (zeros r.length)
          = Layout.slotCount p.width capacity r := by
        rw [Layout.slotCount, Layout.slotCount, length_zeros]
      have hfit := slotCount_mul_le p.width capacity r
      rw [fill, ok_bind, slotCount_ok, ok_bind, hcount,
        writeSlots_front (f := fun i _ => p.write i)]
      · rfl
      · intro i _ slot hslot
        exact ⟨by rw [Primitive.length_write, hslot], _, writeNumber_ok p i hslot⟩
      · intro j hj
        rw [List.length_take] at hj
        -- the region of the items is shorter than any offset that wraps around
        exact packedOffset_eq (lt_of_le_of_lt
          ((Nat.mul_le_mul_right _ (by omega)).trans hfit) hregion)
      · rw [List.length_take, length_zeros]
        exact le_trans (Nat.mul_le_mul_right _ (Nat.min_le_left _ _)) hfit
  seed := seed_ok_of_zeros rfl (by simp)

/-- **Writing.**  For a well-formed layout, no value and no byte string makes the writers fault. -/
theorem writes {layout : Layout} (h : layout.WellFormed) : Writes layout := by
  induction h with
  | primitive p =>
    refine ⟨fun u v b => ?_, seed_ok_of_zeros rfl (by simp)⟩
    rw [write, Layout.write]
    split_ifs with hfits
    · have hslot : (b.take p.width).length = p.width := by
        rw [List.length_take, Nat.min_eq_left hfits]
      rw [onSlice_front hfits (writeNumber_ok p v hslot),
        BinarySchema.overlay_of_le (by rw [Primitive.length_write]; exact hfits),
        Primitive.length_write]
    · rfl
  | text cap =>
    refine ⟨fun u v b => ?_, seed_ok_of_zeros rfl (by simp)⟩
    rw [write, Layout.write]
    exact writeContent_ok cap v.bytes b
  | blob cap =>
    refine ⟨fun u v b => ?_, seed_ok_of_zeros rfl (by simp)⟩
    rw [write, Layout.write]
    exact writeContent_ok cap v.bytes b
  | array capacity hitem hstride ih => exact writes_array ih hitem.keepsLength _ capacity
  | packed p capacity => exact writes_packed p capacity
  | vector limit hitem ih =>
    refine ⟨fun u v b => ?_, seed_ok_of_zeros rfl (by simp)⟩
    have hsize := funext (encodedLength_ok hitem)
    rw [write, write_vector, admitted_ok, ok_bind, ih.encodeOver, hsize]
    exact writeVector_ok _ hitem.keepsLength.encodeOver _ b
  | dict hkey hlength hvalue ihkey ihvalue =>
    refine ⟨fun u v b => ?_, seed_ok_of_zeros rfl (by simp)⟩
    have hsize := funext (encodedLength_ok hvalue)
    simp only [write, write_dict, ihkey.write, ihvalue.encodeOver, hsize]
    exact writeDict_ok _ hvalue.keepsLength.encodeOver (fun name => hkey.keepsLength.1 _ _) _ b
  | @object fields hparts harranged hfixed hnames ih =>
    have hkeeps := fun f hf => (hparts f hf).keepsLength
    refine ⟨fun u v b => ?_, fun b => ?_⟩
    · rw [write, Layout.write]
      split_ifs with hroom
      · rfl
      · exact onSlice_writeFixed ih hkeeps u v (le_of_not_gt hroom)
    · rw [seed, Layout.seed]
      exact seedRecord_ok ih hkeeps b
  | @map fields hparts harranged hnames ih =>
    have hkeeps := fun f hf => (hparts f hf).keepsLength
    refine ⟨fun u v b => ?_, fun b => ?_⟩
    · rw [write, Layout.write]
      split_ifs with hroom
      · rfl
      · have hregion := le_trans (fixedRegion_le_dataStart fields) (le_of_not_gt hroom)
        rw [onSlice_writeFixed ih hkeeps u v hregion, ok_bind,
          optionalPortions_ok ih fun f hf => encodedLength_ok (hparts f hf), writeParts_ok, ok_bind,
          storeWord_ok, ← writeOptional_eq_placeInto]
        rfl
    · rw [seed, Layout.seed]
      exact seedRecord_ok ih hkeeps b

end Checked

end Layout

end BinarySchema
