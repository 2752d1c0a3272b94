/-
# What writing does to a byte string

Writing a value never changes the number of bytes, and takes no more of them than there are
(`WellFormed.keepsLength`).  What it makes of them is an image: of a vector by `write_vector`, of a
dict by `write_dict`, and of a map by `write_map`, where the parts of the latter are its optional
fields, placed one after the other behind the table.
-/
import BinarySchema.Layout.Encode
import BinarySchema.Proofs.Placing
import BinarySchema.Proofs.Primitive
import BinarySchema.Proofs.WellFormed

namespace BinarySchema

namespace Layout

variable {u : Unsupplied} {v : Value} {b : Bytes} {f : Field Layout} {fields rest : List (Field Layout)}

/-! ## Steps of the writers -/

@[simp] theorem length_prepare (u : Unsupplied) (b : Bytes) : (u.prepare b).length = b.length := by
  cases u with
  | cleared => rw [Unsupplied.prepare, length_zeros]
  | kept => rfl

theorem writeFixed_cons_some {span : Span} {x : Value} (hf : f.place = .fixed span)
    (hx : v.get? f.name = some x) (b : Bytes) :
    writeFixed (f :: rest) v b
      = writeFixed rest v (span.modify (fun slot => (write .kept f.layout x slot).bytes) b) := by
  rw [writeFixed, hf, hx]

theorem writeFixed_cons_none (hx : v.get? f.name = none) (b : Bytes) :
    writeFixed (f :: rest) v b = writeFixed rest v b := by
  rw [writeFixed, hx]
  cases f.place <;> rfl

theorem writeFixed_cons_optional {k : Nat} (hf : f.place = .optional k) (b : Bytes) :
    writeFixed (f :: rest) v b = writeFixed rest v b := by
  rw [writeFixed, hf]

/-- Defaults are written over the seeds of fields. -/
theorem writeDefaults_cons_fixed {span : Span} (hf : f.place = .fixed span) (b : Bytes) :
    writeDefaults (f :: rest) b = writeDefaults rest (span.modify (fun slot =>
      match f.default with
      | none => seed f.layout slot
      | some x => (encodeOver f.layout x slot).bytes) b) := by
  rw [writeDefaults, hf]
  rfl

theorem writeDefaults_cons_optional {k : Nat} (hf : f.place = .optional k) (b : Bytes) :
    writeDefaults (f :: rest) b = writeDefaults rest b := by
  rw [writeDefaults, hf]

/-! ## Keeping the length -/

/-- Writing and seeding values of the layout keeps the number of bytes. -/
def KeepsLength (layout : Layout) : Prop :=
  (∀ u v, Keeps (write u layout v)) ∧ ∀ b, (seed layout b).length = b.length

theorem KeepsLength.encodeOver {layout : Layout} (h : layout.KeepsLength) (v : Value) :
    Keeps (encodeOver layout v) := by
  intro slot
  have hwrite := h.1 .kept v (seed layout slot)
  rw [h.2] at hwrite
  exact hwrite

theorem length_writeFixed (hparts : ∀ f ∈ fields, f.layout.KeepsLength) (v : Value) (b : Bytes) :
    (writeFixed fields v b).length = b.length := by
  induction fields generalizing b with
  | nil => rw [writeFixed]
  | cons f rest ih =>
    have hrest := fun b => ih (fun g hg => hparts g (List.mem_cons_of_mem _ hg)) b
    cases hf : f.place with
    | optional k => rw [writeFixed_cons_optional hf, hrest]
    | fixed span =>
      cases hx : v.get? f.name with
      | none => rw [writeFixed_cons_none hx, hrest]
      | some x =>
        rw [writeFixed_cons_some hf hx, hrest, Span.length_modify]
        exact fun slot => ((hparts f List.mem_cons_self).1 .kept x slot).1

theorem length_writeDefaults (hparts : ∀ f ∈ fields, f.layout.KeepsLength) (b : Bytes) :
    (writeDefaults fields b).length = b.length := by
  induction fields generalizing b with
  | nil => rw [writeDefaults]
  | cons f rest ih =>
    have hrest := fun b => ih (fun g hg => hparts g (List.mem_cons_of_mem _ hg)) b
    have hself := hparts f List.mem_cons_self
    cases hf : f.place with
    | optional k => rw [writeDefaults_cons_optional hf, hrest]
    | fixed span =>
      rw [writeDefaults_cons_fixed hf, hrest, Span.length_modify]
      intro slot
      cases f.default with
      | none => exact hself.2 slot
      | some x => exact (hself.encodeOver x slot).1

/-- A number of bytes that a cap admits. -/
def WithinCap (cap : Option Nat) (n : Nat) : Prop := ∀ m, cap = some m → n ≤ m

theorem WithinCap.of_eq {cap : Option Nat} {n : Nat} (h : ∀ m, cap = some m → n = m) :
    WithinCap cap n := fun m hm => le_of_eq (h m hm)

theorem WithinCap.le_getD {cap : Option Nat} {n k : Nat} (h : WithinCap cap n) (hk : n ≤ k) :
    n ≤ cap.getD k := by
  cases cap with
  | none => exact hk
  | some m => exact h m rfl

theorem capped_le (cap : Option Nat) (n : Nat) : capped cap n ≤ n := by
  cases cap with
  | none => exact le_refl _
  | some m => exact Nat.min_le_left _ _

theorem withinCap_admitted (limit : Option Nat) (items : List Value) :
    WithinCap limit (admitted limit items).length := by
  rintro m rfl
  exact List.length_take_le _ _

theorem admitted_of_withinCap {limit : Option Nat} {items : List Value}
    (h : WithinCap limit items.length) : admitted limit items = items := by
  cases limit with
  | none => rfl
  | some m => exact List.take_of_length_le (h m rfl)

theorem mem_of_mem_admitted {limit : Option Nat} {items : List Value} {i : Value}
    (h : i ∈ admitted limit items) : i ∈ items := by
  cases limit with
  | none => exact h
  | some m => exact List.mem_of_mem_take h

/-- The content that is written ends before the zeros do. -/
theorem content_le_filled (cap : Option Nat) (n room : Nat) :
    min (capped cap n) room ≤ min (cap.getD (min (capped cap n) room)) room := by
  cases cap with
  | none => simp only [Option.getD_none, capped]; omega
  | some m => simp only [Option.getD_some, capped]; omega

theorem keeps_writeContent (cap : Option Nat) (content : Bytes) :
    Keeps (writeContent cap content) := by
  intro slot
  have hfilled := content_le_filled cap content.length slot.length
  have hcontent := capped_le cap content.length
  unfold writeContent
  simp only [List.length_append, List.length_take, List.length_drop, length_zeros]
  omega

/-- What a slot of `n` bytes holds of a content: as much as there is room for, and zeros behind
it. -/
def fitted (content : Bytes) (n : Nat) : Bytes := content.take n ++ zeros (n - content.length)

@[simp] theorem length_fitted (content : Bytes) (n : Nat) : (fitted content n).length = n := by
  rw [fitted, List.length_append, List.length_take, length_zeros]
  omega

theorem fitted_nil (n : Nat) : fitted [] n = zeros n := by
  rw [fitted, List.take_nil, List.nil_append, List.length_nil, Nat.sub_zero]

theorem fitted_of_le {content : Bytes} {n : Nat} (h : n ≤ content.length) :
    fitted content n = content.take n := by
  rw [fitted, Nat.sub_eq_zero_of_le h, zeros, List.replicate_zero, List.append_nil]

theorem fitted_length (b : Bytes) : fitted b b.length = b := by
  rw [fitted_of_le (le_refl _), List.take_length]

/-- A content that is written to a slot within its cap takes the whole slot. -/
theorem writeContent_eq {cap : Option Nat} {content : Bytes}
    (h : b.length ≤ cap.getD content.length) :
    writeContent cap content b = ⟨fitted content b.length, b.length⟩ := by
  have hfilled : min (cap.getD (min (capped cap content.length) b.length)) b.length
      = b.length := by
    cases cap with
    | none =>
      simp only [Option.getD_none, capped] at h ⊢
      omega
    | some m =>
      simp only [Option.getD_some] at h ⊢
      omega
  have hlength : min (capped cap content.length) b.length = min content.length b.length := by
    cases cap with
    | none => rfl
    | some m =>
      simp only [Option.getD_some, capped] at h ⊢
      omega
  have htake : content.take (min content.length b.length) = content.take b.length := by
    rw [Nat.min_comm, ← List.take_take, List.take_length]
  have hrest : b.length - min content.length b.length = b.length - content.length := by omega
  rw [writeContent, hfilled, hlength, htake, hrest, List.drop_length, List.append_nil, fitted]

/-! ## Vectors and dicts -/

theorem itemParts_encodeOver_needs (item : Layout) (items : List Value) :
    needs (itemParts (encodedLength item) (encodeOver item) items)
      = (items.map fun i => if i.isNull then 0 else encodedLength item i).sum :=
  needs_itemParts _ _ _

theorem write_vector (u : Unsupplied) (item : Layout) (limit : Option Nat) (v : Value) (b : Bytes) :
    write u (.vector item limit) v b
      = writeVector (encodedLength item) (encodeOver item) (admitted limit v.items) b := by
  rw [write]
  rfl

/-- How the key of an entry is written to its slot. -/
def putKey (key : Layout) (name : String) (slot : Bytes) : Bytes :=
  (encode key (keyValue key name) slot).bytes

theorem write_dict (u : Unsupplied) (key : Layout) (keyLength : Nat) (value : Layout) (v : Value)
    (b : Bytes) :
    write u (.dict key keyLength value) v b
      = writeDict keyLength (putKey key) (encodedLength value) (encodeOver value) v.fields b := by
  rw [write]
  rfl

theorem length_putKey {key : Layout} (hkey : key.KeepsLength) (keyLength : Nat) (name : String)
    (slot : Bytes) (hslot : slot.length = keyLength) : (putKey key name slot).length = keyLength := by
  rw [← hslot]
  exact (hkey.1 .cleared (keyValue key name) slot).1

/-! ## Maps -/

/-- The part of an optional field of a record. -/
def optionalPart (v : Value) (f : Field Layout) : Option Part :=
  (f.pick? v).bind fun x =>
    if 0 < capped f.maxLength (encodedLength f.layout x) then
      some ⟨capped f.maxLength (encodedLength f.layout x), encodeOver f.layout x⟩
    else none

/-- The parts of the optional fields of a record. -/
def optionalParts (fields : List (Field Layout)) (v : Value) : List (Option Part) :=
  (optionals fields).map (optionalPart v)

@[simp] theorem length_optionalParts (fields : List (Field Layout)) (v : Value) :
    (optionalParts fields v).length = optionalCount fields := by
  rw [optionalParts, List.length_map, length_optionals]

theorem length_place_optionalParts (fields : List (Field Layout)) (v : Value) (b : Bytes) :
    (place (optionalParts fields v) b).1.length = optionalCount fields := by
  rw [length_place_fst, length_optionalParts]

theorem optionalParts_cons_fixed {span : Span} (hf : f.place = .fixed span) :
    optionalParts (f :: rest) v = optionalParts rest v := by
  rw [optionalParts, optionals_cons_fixed hf, optionalParts]

theorem optionalParts_cons_optional {k : Nat} (hf : f.place = .optional k) :
    optionalParts (f :: rest) v = optionalPart v f :: optionalParts rest v := by
  rw [optionalParts, optionals_cons_optional hf, List.map_cons, optionalParts]

theorem optionalPart_keeps (hf : f.layout.KeepsLength) (v : Value) {p : Part}
    (hp : optionalPart v f = some p) : Keeps p.put := by
  obtain ⟨x, -, hx⟩ := Option.bind_eq_some_iff.mp hp
  split_ifs at hx
  rw [Option.some.injEq] at hx
  rw [← hx]
  exact hf.encodeOver x

theorem allKeep_optionalParts (hparts : ∀ f ∈ fields, f.layout.KeepsLength) (v : Value) :
    AllKeep (optionalParts fields v) := by
  intro part hpart p hp
  obtain ⟨f, hf, hpartf⟩ := List.mem_map.mp hpart
  exact optionalPart_keeps (hparts f (mem_of_mem_optionals hf)) v (hpartf.trans hp)

theorem need_optionalPart (v : Value) (f : Field Layout) :
    need (optionalPart v f)
      = (f.pick? v).elim 0 fun x => capped f.maxLength (encodedLength f.layout x) := by
  rw [optionalPart]
  cases f.pick? v with
  | none => rfl
  | some x =>
    rw [Option.bind_some, Option.elim_some]
    split_ifs with hpos
    · rfl
    · exact (Nat.eq_zero_of_not_pos hpos).symm

/-- The optional fields ask for as many bytes as they are said to need. -/
theorem needs_optionalParts (fields : List (Field Layout)) (v : Value) :
    needs (optionalParts fields v) = optionalsLength fields v := by
  induction fields with
  | nil => rw [optionalsLength]; rfl
  | cons f rest ih =>
    rw [optionalsLength]
    cases hf : f.place with
    | fixed span => rw [optionalParts_cons_fixed hf, ih, Nat.zero_add]
    | optional k =>
      rw [optionalParts_cons_optional hf, needs_cons, ih, need_optionalPart]
      cases f.pick? v <;> rfl

/-- The parts of the optional fields of a record, with the offsets of their entries in the table at
`table`. -/
def optionalEntries (table : Nat) (fields : List (Field Layout)) (v : Value) :
    List (Nat × Option Part) :=
  (optionals fields).map fun f => (table + f.ordinal?.getD 0 * Word.width, optionalPart v f)

theorem optionalEntries_cons_fixed {span : Span} (hf : f.place = .fixed span) (table : Nat) :
    optionalEntries table (f :: rest) v = optionalEntries table rest v := by
  rw [optionalEntries, optionals_cons_fixed hf, optionalEntries]

theorem optionalEntries_cons_optional {k : Nat} (hf : f.place = .optional k) (table : Nat) :
    optionalEntries table (f :: rest) v
      = (table + k * Word.width, optionalPart v f) :: optionalEntries table rest v := by
  rw [optionalEntries, optionals_cons_optional hf, List.map_cons, optionalEntries, Field.ordinal?,
    hf]
  rfl

/-- The entries of the optional fields lie one behind the other. -/
theorem optionalEntries_eq {start ordinal : Nat} (harranged : Arranged start ordinal fields)
    (table : Nat) (v : Value) :
    optionalEntries table fields v = withEntries table ordinal (optionalParts fields v) := by
  induction fields generalizing start ordinal with
  | nil => rfl
  | cons f rest ih =>
    cases hf : f.place with
    | fixed span =>
      rw [Arranged.cons_fixed hf] at harranged
      rw [optionalEntries_cons_fixed hf, optionalParts_cons_fixed hf, ih harranged.2.2]
    | optional k =>
      rw [Arranged.cons_optional hf] at harranged
      rw [optionalEntries_cons_optional hf, optionalParts_cons_optional hf, withEntries,
        ih harranged.2, harranged.1]

/-- Writing one optional field puts its part behind what has been written. -/
theorem writeOptional_cons_optional {k : Nat} (hf : f.place = .optional k) (table : Nat)
    (w : Written) :
    writeOptional table (f :: rest) v w = writeOptional table rest v
      ⟨Word.store (putInto (optionalPart v f) w).length (putInto (optionalPart v f) w).bytes
        (table + k * Word.width), (putInto (optionalPart v f) w).length⟩ := by
  rw [writeOptional, hf, optionalPart]
  cases f.pick? v with
  | none => rfl
  | some x =>
    rw [Option.bind_some]
    dsimp only
    -- a field that asks for no bytes is left out, as one that does not fit is
    split_ifs with hfits hpos hpos
    · rw [putInto, if_pos hfits.2]
      rfl
    · exact absurd hfits.1 hpos
    · rw [putInto, if_neg fun h => hfits ⟨hpos, h⟩]
    · rfl

theorem writeOptional_cons_fixed {span : Span} (hf : f.place = .fixed span) (table : Nat)
    (w : Written) : writeOptional table (f :: rest) v w = writeOptional table rest v w := by
  rw [writeOptional, hf]

/-- The optional fields are written in place. -/
theorem writeOptional_eq_placeInto (table : Nat) (fields : List (Field Layout)) (v : Value)
    (w : Written) : writeOptional table fields v w = placeInto (optionalEntries table fields v) w := by
  induction fields generalizing w with
  | nil => rw [writeOptional]; rfl
  | cons f rest ih =>
    cases hf : f.place with
    | fixed span => rw [writeOptional_cons_fixed hf, optionalEntries_cons_fixed hf, ih]
    | optional k =>
      rw [writeOptional_cons_optional hf, optionalEntries_cons_optional hf, ih, placeInto]

/-- The optional fields are placed behind what has been written, and the table names their ends. -/
theorem writeOptional_eq {start ordinal : Nat} (harranged : Arranged start ordinal fields)
    (hparts : ∀ f ∈ fields, f.layout.KeepsLength) {table length : Nat} {a t c b : Bytes}
    (ha : a.length = table + ordinal * Word.width)
    (ht : t.length = optionalCount fields * Word.width) (hlength : (a ++ t ++ c).length = length) :
    writeOptional table fields v ⟨a ++ t ++ c ++ b, length⟩
      = ⟨a ++ words (ends length (place (optionalParts fields v) b).1) ++ c
          ++ (place (optionalParts fields v) b).1.flatten ++ (place (optionalParts fields v) b).2,
        length + (place (optionalParts fields v) b).1.flatten.length⟩ := by
  rw [writeOptional_eq_placeInto, optionalEntries_eq harranged]
  exact placeInto_eq (allKeep_optionalParts hparts v) ha (by rw [length_optionalParts, ht]) hlength b

/-- The optional fields of a map begin behind its table. -/
theorem dataStart_eq (fields : List (Field Layout)) :
    dataStart fields = optionalStart (fixedRegion fields) (optionalCount fields) := rfl

/-- The fixed region of a map, as it is written. -/
def fixedBytes (u : Unsupplied) (fields : List (Field Layout)) (v : Value) (b : Bytes) : Bytes :=
  writeFixed fields v (u.prepare (b.take (fixedRegion fields)))

theorem length_fixedBytes (hparts : ∀ f ∈ fields, f.layout.KeepsLength)
    (hroom : fixedRegion fields ≤ b.length) :
    (fixedBytes u fields v b).length = fixedRegion fields := by
  rw [fixedBytes, length_writeFixed hparts, length_prepare, List.length_take,
    Nat.min_eq_left hroom]

/-- **Maps.**  Writing a map makes the image of its fixed region and of the optional fields, as they
are placed behind the table. -/
theorem write_map (harranged : Arranged 0 0 fields) (hparts : ∀ f ∈ fields, f.layout.KeepsLength)
    (hroom : dataStart fields ≤ b.length) {p : List Bytes × Bytes}
    (hp : place (optionalParts fields v) (b.drop (dataStart fields)) = p) :
    write u (.map fields) v b
      = ⟨mapImage (fixedBytes u fields v b) p.1 ++ p.2,
        (mapImage (fixedBytes u fields v b) p.1).length⟩ := by
  have hregion : fixedRegion fields + optionalCount fields * Word.width + Word.width ≤ b.length :=
    hroom
  have hfixed := length_fixedBytes (u := u) (v := v) (b := b) hparts (by omega)
  have hcount : p.1.length = optionalCount fields := by
    rw [← hp, length_place_fst, length_optionalParts]
  -- the region behind the fixed fields: the table, the word of the used length, and the room
  obtain ⟨t, ht⟩ : ∃ t, t = (b.drop (fixedRegion fields)).take
    (optionalCount fields * Word.width) := ⟨_, rfl⟩
  obtain ⟨c, hc⟩ : ∃ c, c = (b.drop (usedLengthOffset fields)).take Word.width := ⟨_, rfl⟩
  have htLength : t.length = optionalCount fields * Word.width := by
    rw [ht, List.length_take, List.length_drop]
    omega
  have hcLength : c.length = Word.width := by
    rw [hc, List.length_take, List.length_drop, usedLengthOffset, endOffset]
    omega
  have hsplit : b.drop (fixedRegion fields) = t ++ c ++ b.drop (dataStart fields) := by
    have hfirst := List.take_append_drop (optionalCount fields * Word.width)
      (b.drop (fixedRegion fields))
    have hsecond := List.take_append_drop Word.width (b.drop (usedLengthOffset fields))
    rw [List.drop_drop] at hfirst hsecond
    rw [ht, hc, List.append_assoc]
    exact hfirst.symm.trans (congrArg _ hsecond.symm)
  have hlength : (fixedBytes u fields v b ++ t ++ c).length = dataStart fields := by
    rw [List.length_append, List.length_append, hfixed, htLength, hcLength]
    rfl
  have hregionLength : optionalStart (fixedBytes u fields v b).length p.1.length
      = dataStart fields := by
    rw [hfixed, hcount, dataStart_eq]
  -- the fixed region is written first, and nothing behind it is touched yet
  have hbytes : onFront (fixedRegion fields) (fun r => writeFixed fields v (u.prepare r)) b
      = fixedBytes u fields v b ++ t ++ c ++ b.drop (dataStart fields) := by
    rw [onFront, hsplit, fixedBytes]
    simp only [List.append_assoc]
  -- the used length is stored last, behind the end offsets
  have htable : (fixedBytes u fields v b ++ words (ends (dataStart fields) p.1)).length
      = usedLengthOffset fields := by
    rw [List.length_append, hfixed, length_words, length_ends, hcount]
    rfl
  rw [write, if_neg (by omega)]
  dsimp only
  rw [hbytes, writeOptional_eq harranged hparts (by rw [hfixed, Nat.zero_mul, Nat.add_zero])
    htLength hlength, hp]
  dsimp only
  rw [List.append_assoc _ p.1.flatten, Word.store_middle htable hcLength, length_mapImage, mapImage,
    hregionLength, words_append]
  simp only [words, List.flatMap_cons, List.flatMap_nil, List.append_nil, List.append_assoc]

/-- The image of a map and what is left behind it make up the byte string. -/
theorem length_mapImage_place (hparts : ∀ f ∈ fields, f.layout.KeepsLength)
    (hroom : dataStart fields ≤ b.length) :
    (mapImage (fixedBytes u fields v b)
          (place (optionalParts fields v) (b.drop (dataStart fields))).1).length
        + (place (optionalParts fields v) (b.drop (dataStart fields))).2.length = b.length := by
  have hplace := length_place (allKeep_optionalParts hparts v) (b.drop (dataStart fields))
  have hfixed := length_fixedBytes (u := u) (v := v) hparts
    (le_trans (fixedRegion_le_dataStart fields) hroom)
  rw [List.length_drop] at hplace
  rw [length_mapImage, hfixed, length_place_fst, length_optionalParts, ← dataStart_eq]
  omega

/-! ## Fixed places -/

/-- The places of all fields at fixed places lie inside the byte string. -/
def AllFit (fields : List (Field Layout)) (b : Bytes) : Prop :=
  ∀ f ∈ fields, ∀ span, f.place = .fixed span → span.Fits b

theorem AllFit.tail (h : AllFit (f :: rest) b) : AllFit rest b :=
  fun g hg => h g (List.mem_cons_of_mem _ hg)

theorem AllFit.of_length {c : Bytes} (h : AllFit fields b) (hlength : c.length = b.length) :
    AllFit fields c := by
  intro g hg span hspan
  rw [Span.Fits, hlength]
  exact h g hg span hspan

/-- The places of the fields of a record fit its fixed region. -/
theorem allFit_of_length (h : b.length = fixedRegion fields) : AllFit fields b := by
  intro f hf span hspan
  rw [Span.Fits, h]
  exact stop_le_fixedRegion hf hspan

/-- Rewrites the bytes of each field at a fixed place. -/
def modifyPlaces (g : Field Layout → Bytes → Bytes) : List (Field Layout) → Bytes → Bytes
  | [], b => b
  | f :: rest, b =>
    match f.place with
    | .fixed span => modifyPlaces g rest (span.modify (g f) b)
    | .optional _ => modifyPlaces g rest b

/-- What a record makes of the bytes of one of its fields. -/
def supplySlot (v : Value) (f : Field Layout) (slot : Bytes) : Bytes :=
  match v.get? f.name with
  | none => slot
  | some x => (write .kept f.layout x slot).bytes

/-- What the defaults of a field make of its bytes. -/
def defaultSlot (f : Field Layout) (slot : Bytes) : Bytes :=
  match f.default with
  | none => seed f.layout slot
  | some x => (encodeOver f.layout x slot).bytes

theorem writeFixed_eq (fields : List (Field Layout)) (v : Value) (b : Bytes) :
    writeFixed fields v b = modifyPlaces (supplySlot v) fields b := by
  induction fields generalizing b with
  | nil => rw [writeFixed, modifyPlaces]
  | cons f rest ih =>
    rw [modifyPlaces]
    cases hf : f.place with
    | optional k => rw [writeFixed_cons_optional hf, ih]
    | fixed span =>
      cases hx : v.get? f.name with
      | none =>
        -- a field that the record does not have keeps its bytes
        have hsame : span.modify (supplySlot v f) b = b := by
          rw [Span.modify, supplySlot, hx]
          exact Span.take_slice_drop span b
        rw [writeFixed_cons_none hx, ih]
        dsimp only
        rw [hsame]
      | some x =>
        have hsupply : supplySlot v f = fun slot => (write .kept f.layout x slot).bytes := by
          funext slot
          rw [supplySlot, hx]
        rw [writeFixed_cons_some hf hx, ih]
        dsimp only
        rw [hsupply]

theorem writeDefaults_eq (fields : List (Field Layout)) (b : Bytes) :
    writeDefaults fields b = modifyPlaces defaultSlot fields b := by
  induction fields generalizing b with
  | nil => rw [writeDefaults, modifyPlaces]
  | cons f rest ih =>
    rw [modifyPlaces]
    cases hf : f.place with
    | optional k => rw [writeDefaults_cons_optional hf, ih]
    | fixed span =>
      rw [writeDefaults_cons_fixed hf, ih]
      rfl

theorem length_supplySlot (hf : f.layout.KeepsLength) (v : Value) (slot : Bytes) :
    (supplySlot v f slot).length = slot.length := by
  rw [supplySlot]
  cases v.get? f.name with
  | none => rfl
  | some x => exact (hf.1 .kept x slot).1

theorem length_defaultSlot (hf : f.layout.KeepsLength) (slot : Bytes) :
    (defaultSlot f slot).length = slot.length := by
  rw [defaultSlot]
  cases f.default with
  | none => exact hf.2 slot
  | some x => exact (hf.encodeOver x slot).1

section

variable {g : Field Layout → Bytes → Bytes}

/-- Rewriting the first field changes no byte behind its place. -/
theorem modifyPlaces_cons (hself : ∀ slot, (g f slot).length = slot.length)
    (hfit : AllFit (f :: rest) b) :
    ∃ c, modifyPlaces g (f :: rest) b = modifyPlaces g rest c ∧ c.length = b.length
      ∧ ∀ t : Span, (∀ span, f.place = .fixed span → t.stop ≤ span.start ∨ span.stop ≤ t.start) →
        t.slice c = t.slice b := by
  rw [modifyPlaces]
  cases hf : f.place with
  | optional k => exact ⟨b, rfl, rfl, fun t _ => rfl⟩
  | fixed span =>
    have hfits : span.Fits b := hfit f List.mem_cons_self span hf
    refine ⟨_, rfl, Span.length_modify hself, fun t ht => ?_⟩
    refine Span.slice_splice_of_disjoint hfits ?_ (ht span rfl)
    rw [hself, Span.length_slice_of_fits hfits]

/-- No byte in front of the fixed places is changed. -/
theorem slice_modifyPlaces_of_le {start ordinal : Nat} (harranged : Arranged start ordinal fields)
    (hg : ∀ f ∈ fields, ∀ slot, (g f slot).length = slot.length) (hfit : AllFit fields b) {t : Span}
    (ht : t.stop ≤ start) : t.slice (modifyPlaces g fields b) = t.slice b := by
  induction fields generalizing start ordinal b with
  | nil => rw [modifyPlaces]
  | cons f rest ih =>
    obtain ⟨c, hmodify, hlength, hslice⟩ := modifyPlaces_cons (hg f List.mem_cons_self) hfit
    -- the place of the first field begins behind the span, and so do all others
    have hbefore : t.slice c = t.slice b := by
      apply hslice
      intro span hspan
      exact Or.inl (le_trans ht (harranged.start_le List.mem_cons_self hspan))
    have hrest : ∃ start' ordinal', Arranged start' ordinal' rest ∧ start ≤ start' := by
      cases hf : f.place with
      | fixed span =>
        rw [Arranged.cons_fixed hf] at harranged
        refine ⟨span.stop, ordinal, harranged.2.2, ?_⟩
        rw [Span.stop, harranged.1]
        exact Nat.le_add_right _ _
      | optional k =>
        rw [Arranged.cons_optional hf] at harranged
        exact ⟨start, ordinal + 1, harranged.2, le_refl _⟩
    obtain ⟨start', ordinal', hrest, hle⟩ := hrest
    rw [hmodify, ih hrest (fun f hf => hg f (List.mem_cons_of_mem _ hf))
      (hfit.tail.of_length hlength) (le_trans ht hle), hbefore]

/-- **Fixed places.**  Each field at a fixed place is rewritten by itself. -/
theorem slice_modifyPlaces {start ordinal : Nat} (harranged : Arranged start ordinal fields)
    (hg : ∀ f ∈ fields, ∀ slot, (g f slot).length = slot.length) (hfit : AllFit fields b)
    (hf : f ∈ fields) {span : Span} (hplace : f.place = .fixed span) :
    span.slice (modifyPlaces g fields b) = g f (span.slice b) := by
  induction fields generalizing start ordinal b with
  | nil => exact absurd hf List.not_mem_nil
  | cons h rest ih =>
    have hrest : ∀ f ∈ rest, ∀ slot, (g f slot).length = slot.length := fun f hf =>
      hg f (List.mem_cons_of_mem _ hf)
    rcases List.mem_cons.mp hf with rfl | hf
    · have hfits := hfit f List.mem_cons_self span hplace
      have hself := hg f List.mem_cons_self
      have hlength : (span.modify (g f) b).length = b.length := Span.length_modify hself
      rw [Arranged.cons_fixed hplace] at harranged
      rw [modifyPlaces, hplace]
      dsimp only
      -- the later fields leave the place alone
      rw [slice_modifyPlaces_of_le harranged.2.2 hrest (hfit.tail.of_length hlength) (le_refl _)]
      apply Span.slice_splice hfits
      rw [hself, Span.length_slice_of_fits hfits]
    · obtain ⟨c, hmodify, hlength, hslice⟩ := modifyPlaces_cons (hg h List.mem_cons_self) hfit
      -- the field in front leaves the place alone
      have hsame : span.slice c = span.slice b := by
        apply hslice
        intro span' hspan'
        rw [Arranged.cons_fixed hspan'] at harranged
        exact Or.inr (harranged.2.2.start_le hf hplace)
      have harranged' : ∃ start' ordinal', Arranged start' ordinal' rest := by
        cases hh : h.place with
        | fixed span' => exact ⟨_, _, ((Arranged.cons_fixed hh).mp harranged).2.2⟩
        | optional k => exact ⟨_, _, ((Arranged.cons_optional hh).mp harranged).2⟩
      obtain ⟨start', ordinal', harranged'⟩ := harranged'
      rw [hmodify, ih harranged' hrest (hfit.tail.of_length hlength) hf, hsame]

end

/-- Each field that a record has is written to its own place. -/
theorem slice_writeFixed {start ordinal : Nat} (harranged : Arranged start ordinal fields)
    (hparts : ∀ f ∈ fields, f.layout.KeepsLength) (hfit : AllFit fields b) (hf : f ∈ fields)
    {span : Span} (hplace : f.place = .fixed span) {x : Value} (hx : v.get? f.name = some x) :
    span.slice (writeFixed fields v b) = (write .kept f.layout x (span.slice b)).bytes := by
  rw [writeFixed_eq, slice_modifyPlaces harranged
    (fun g hg => length_supplySlot (hparts g hg) v) hfit hf hplace, supplySlot, hx]

/-- The defaults of each field are written to its own place. -/
theorem slice_writeDefaults {start ordinal : Nat} (harranged : Arranged start ordinal fields)
    (hparts : ∀ f ∈ fields, f.layout.KeepsLength) (hfit : AllFit fields b) (hf : f ∈ fields)
    {span : Span} (hplace : f.place = .fixed span) :
    span.slice (writeDefaults fields b) = defaultSlot f (span.slice b) := by
  rw [writeDefaults_eq, slice_modifyPlaces harranged
    (fun g hg => length_defaultSlot (hparts g hg)) hfit hf hplace]

/-! ## All layouts -/

/-- A layout that has no defaults of its own is seeded with zeros. -/
theorem seed_eq_onFront {layout : Layout} (hfields : layout.fields? = none)
    (harray : ∀ item stride capacity, layout ≠ .array item stride capacity) (b : Bytes) :
    seed layout b = onFront (layout.fixedLength?.getD 0) (fun r => zeros r.length) b := by
  cases layout with
  | object fields => cases hfields
  | map fields => cases hfields
  | array item stride capacity => exact absurd rfl (harray item stride capacity)
  | _ => rw [seed] <;> simp

theorem length_seed_of_zeros {layout : Layout} (hfields : layout.fields? = none)
    (harray : ∀ item stride capacity, layout ≠ .array item stride capacity) (b : Bytes) :
    (seed layout b).length = b.length := by
  rw [seed_eq_onFront hfields harray, length_onFront]
  exact fun r => length_zeros _

/-- The size of a packed array is that of its items, where that is a 64-bit number. -/
theorem packedLength_eq {p : Primitive} {capacity : Nat} (h : capacity * p.width < UInt64.size) :
    packedLength p capacity = capacity * p.width :=
  Primitive.shiftLeft_mod h

/-- The items of a packed array lie one behind the other, as long as no offset wraps around. -/
theorem packedOffset_eq {p : Primitive} {i : Nat} (h : i * p.width < UInt64.size) :
    packedOffset p i = i * p.width :=
  Primitive.shiftLeft_mod h

theorem slotCount_congr {stride capacity : Nat} {c : Bytes} (h : b.length = c.length) :
    slotCount stride capacity b = slotCount stride capacity c := by
  rw [slotCount, slotCount, h]

theorem slotCount_le (stride capacity : Nat) (b : Bytes) :
    slotCount stride capacity b ≤ capacity := by
  rw [slotCount]
  split_ifs
  · exact le_refl _
  · exact Nat.min_le_left _ _

/-- No more slots are taken than there are. -/
theorem slotCount_mul_le (stride capacity : Nat) (b : Bytes) :
    slotCount stride capacity b * stride ≤ b.length := by
  rw [slotCount]
  split_ifs with hstride
  · rw [hstride, Nat.mul_zero]
    exact Nat.zero_le _
  · exact le_trans (Nat.mul_le_mul_right _ (Nat.min_le_right _ _)) (Nat.div_mul_le_self _ _)

/-- A run with room for all slots has all of them. -/
theorem slotCount_eq_capacity {stride capacity : Nat} (h : capacity * stride ≤ b.length) :
    slotCount stride capacity b = capacity := by
  rw [slotCount]
  split_ifs with hstride
  · rfl
  · exact Nat.min_eq_left ((Nat.le_div_iff_mul_le (Nat.pos_of_ne_zero hstride)).mpr h)

/-- The slots of a packed array make up its size, also where that has wrapped around. -/
theorem slotCount_packed {p : Primitive} {capacity : Nat} (hb : packedLength p capacity = b.length) :
    slotCount p.width capacity b ≤ capacity
      ∧ slotCount p.width capacity b * p.width = packedLength p capacity := by
  have hdvd : p.width ∣ packedLength p capacity := by
    rw [packedLength, Nat.shiftLeft_eq, ← Primitive.width]
    refine (Nat.dvd_mod_iff ?_).mpr (Nat.dvd_mul_left _ _)
    cases p <;> decide
  have hle : packedLength p capacity / p.width ≤ capacity := by
    apply Nat.div_le_of_le_mul
    rw [packedLength, Nat.shiftLeft_eq, ← Primitive.width, Nat.mul_comm p.width]
    exact Nat.mod_le _ _
  rw [slotCount, if_neg (Nat.ne_of_gt p.width_pos), ← hb, Nat.min_eq_right hle]
  exact ⟨hle, Nat.div_mul_cancel hdvd⟩

theorem keepsLength_array {item : Layout} (hitem : item.KeepsLength) (stride capacity : Nat) :
    (Layout.array item stride capacity).KeepsLength := by
  constructor
  · intro u v b
    rw [write]
    dsimp only
    refine ⟨length_onFront ?_ _ b, Nat.min_le_right _ _⟩
    intro r
    rw [length_onSlots, length_prepare]
    intro g hg slot
    obtain ⟨i, -, rfl⟩ := List.mem_map.mp hg
    dsimp only
    split_ifs
    · rfl
    · exact (hitem.1 u i slot).1
  · intro b
    rw [seed, length_onSlots]
    intro g hg slot
    rw [List.eq_of_mem_replicate hg]
    exact hitem.2 slot

/-- A primitive is written over the first bytes, and those behind it stay. -/
theorem write_primitive {p : Primitive} (u : Unsupplied) (v : Value) (hb : p.width ≤ b.length) :
    write u (.primitive p) v b = ⟨p.write v ++ b.drop p.width, p.width⟩ := by
  rw [write, if_pos hb, overlay_of_le (by rw [Primitive.length_write]; exact hb),
    Primitive.length_write]

/-- Of a slot of its own size nothing stays. -/
theorem write_primitive_slot {p : Primitive} (u : Unsupplied) (v : Value)
    (hb : b.length = p.width) : write u (.primitive p) v b = ⟨p.write v, p.width⟩ := by
  rw [write_primitive u v (le_of_eq hb.symm), ← hb, List.drop_length, List.append_nil]

/-- Whatever is written to a slot, it is written in full. -/
theorem length_of_mem_map_write {p : Primitive} {items : List Value} :
    ∀ g ∈ items.map (fun i (_ : Bytes) => p.write i), ∀ slot : Bytes,
      slot.length = p.width → (g slot).length = p.width := by
  intro g hg slot hslot
  obtain ⟨i, -, rfl⟩ := List.mem_map.mp hg
  exact Primitive.length_write p i

theorem length_onSlots_write {p : Primitive} {items : List Value}
    (hroom : items.length * p.width ≤ b.length) :
    (onSlots p.width (items.map fun i _ => p.write i) b).length = b.length :=
  length_onSlots_of_le length_of_mem_map_write (by rwa [List.length_map])

theorem slice_onSlots_write {p : Primitive} {items : List Value}
    (hroom : items.length * p.width ≤ b.length) {i : Nat} (hi : i < items.length) :
    Span.slice ⟨i * p.width, p.width⟩ (onSlots p.width (items.map fun i _ => p.write i) b)
      = p.write items[i] := by
  rw [slice_onSlots length_of_mem_map_write (by rwa [List.length_map]) (by rwa [List.length_map]),
    List.getElem_map]

theorem keepsLength_packed (p : Primitive) (capacity : Nat) :
    (Layout.packed p capacity).KeepsLength := by
  refine ⟨?_, length_seed_of_zeros rfl (by simp)⟩
  intro u v b
  rw [write]
  dsimp only
  refine ⟨length_onFront ?_ _ b, Nat.min_le_right _ _⟩
  intro r
  -- only as many items are written as there are slots of full size
  rw [length_onSlots_write, length_zeros]
  have hcount := slotCount_mul_le p.width capacity r
  rw [List.length_take, length_zeros]
  exact le_trans (Nat.mul_le_mul_right _ (Nat.min_le_left _ _)) hcount

theorem keepsLength_object (hparts : ∀ f ∈ fields, f.layout.KeepsLength) :
    (Layout.object fields).KeepsLength := by
  constructor
  · intro u v b
    rw [write]
    split_ifs with hroom
    · exact ⟨rfl, Nat.zero_le _⟩
    · dsimp only
      refine ⟨length_onFront ?_ _ b, by omega⟩
      intro r
      rw [length_writeFixed hparts, length_prepare]
  · intro b
    rw [seed, length_overlay]

theorem keepsLength_map (harranged : Arranged 0 0 fields)
    (hparts : ∀ f ∈ fields, f.layout.KeepsLength) : (Layout.map fields).KeepsLength := by
  constructor
  · intro u v b
    rcases lt_or_ge b.length (dataStart fields) with hshort | hroom
    · rw [write, if_pos hshort]
      exact ⟨rfl, Nat.zero_le _⟩
    · have hsum := length_mapImage_place (u := u) (v := v) hparts hroom
      rw [write_map harranged hparts hroom rfl]
      dsimp only
      rw [List.length_append]
      omega
  · intro b
    rw [seed, length_overlay]

/-- **Length.**  Writing and seeding values of a well-formed layout keeps the number of bytes. -/
theorem WellFormed.keepsLength {layout : Layout} (h : layout.WellFormed) : layout.KeepsLength := by
  induction h with
  | primitive p =>
    refine ⟨?_, length_seed_of_zeros rfl (by simp)⟩
    intro u v b
    rw [write]
    split_ifs with hfits
    · exact ⟨length_overlay _ _, hfits⟩
    · exact ⟨rfl, Nat.zero_le _⟩
  | text cap =>
    refine ⟨?_, length_seed_of_zeros rfl (by simp)⟩
    intro u v b
    rw [write]
    exact keeps_writeContent cap v.bytes b
  | blob cap =>
    refine ⟨?_, length_seed_of_zeros rfl (by simp)⟩
    intro u v b
    rw [write]
    exact keeps_writeContent cap v.bytes b
  | array capacity hitem hstride ih => exact keepsLength_array ih _ _
  | packed p capacity => exact keepsLength_packed p capacity
  | vector limit hitem ih =>
    refine ⟨?_, length_seed_of_zeros rfl (by simp)⟩
    intro u v b
    rw [write_vector]
    exact keeps_writeVector _ ih.encodeOver _ b
  | dict hkey hlength hvalue ihkey ihvalue =>
    refine ⟨?_, length_seed_of_zeros rfl (by simp)⟩
    intro u v b
    rw [write_dict]
    exact keeps_writeDict _ ihvalue.encodeOver (length_putKey ihkey _) _ b
  | object hparts harranged hfixed hnames ih => exact keepsLength_object ih
  | map hparts harranged hnames ih => exact keepsLength_map harranged ih

end Layout

end BinarySchema
