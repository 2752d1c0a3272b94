/-
# What decoding gives

Decoding never gives the hole (`decode_ne_null`).  A list has an item for each position
(`decode_array`, `decode_packed`, `decode_vector`), and a record has under the name of each of its
fields what `fieldValue?` says (`lookup_decodedFields`), provided that the names are distinct.
-/
import BinarySchema.Layout.Decode
import BinarySchema.Proofs.Primitive
import BinarySchema.Proofs.Record
import BinarySchema.Proofs.WellFormed
import BinarySchema.Proofs.Write

namespace BinarySchema

namespace Layout

variable {b : Bytes} {f : Field Layout} {fields : List (Field Layout)} {name : String}

/-! ## Named parts -/

/-- The fields that have a part, under their names. -/
def namedParts (part? : Field Layout → Option Value) (fields : List (Field Layout)) :
    List (String × Value) :=
  fields.filterMap fun f => (part? f).map (f.name, ·)

variable {part? : Field Layout → Option Value}

theorem namedParts_cons (part? : Field Layout → Option Value) (f : Field Layout)
    (rest : List (Field Layout)) :
    namedParts part? (f :: rest)
      = ((part? f).map (f.name, ·)).toList ++ namedParts part? rest := by
  rw [namedParts, namedParts]
  cases h : part? f with
  | none => rw [List.filterMap_cons_none (by rw [h, Option.map_none])]; rfl
  | some v => rw [List.filterMap_cons_some (by rw [h, Option.map_some])]; rfl

theorem map_fst_namedParts_sublist (part? : Field Layout → Option Value)
    (fields : List (Field Layout)) :
    ((namedParts part? fields).map (·.1)).Sublist (fields.map Field.name) := by
  induction fields with
  | nil => exact List.Sublist.refl _
  | cons f rest ih =>
    rw [namedParts_cons]
    cases part? f with
    | none => exact ih.cons f.name
    | some v => exact ih.cons_cons f.name

/-- No part has a name that no field has. -/
theorem lookup_namedParts_eq_none (h : name ∉ fields.map Field.name) :
    (namedParts part? fields).lookup name = none := by
  apply Value.lookup_eq_none
  intro hin
  exact h ((map_fst_namedParts_sublist part? fields).mem hin)

/-- The part of a field is found under its name. -/
theorem lookup_namedParts (hnames : (fields.map Field.name).Nodup) (hf : f ∈ fields) :
    (namedParts part? fields).lookup f.name = part? f := by
  induction fields with
  | nil => exact absurd hf List.not_mem_nil
  | cons g rest ih =>
    rw [List.map_cons, List.nodup_cons] at hnames
    rw [namedParts_cons, Value.lookup_append]
    rcases List.mem_cons.mp hf with rfl | hf
    · rw [lookup_namedParts_eq_none hnames.1, Option.or_none]
      cases part? f with
      | none => rfl
      | some v =>
        rw [Option.map_some, Option.toList_some, Value.lookup_cons_eq, if_pos rfl]
    · have hne : f.name ≠ g.name := by
        intro heq
        exact hnames.1 (heq ▸ List.mem_map_of_mem hf)
      have hhead : ((part? g).map (g.name, ·)).toList.lookup f.name = none := by
        cases part? g with
        | none => rfl
        | some v => rw [Option.map_some, Option.toList_some, Value.lookup_cons_eq, if_neg hne]; rfl
      rw [hhead, Option.none_or, ih hnames.2 hf]

/-! ## Fields -/

/-- What a field at a fixed place decodes to. -/
def fixedValue? (b : Bytes) (f : Field Layout) : Option Value :=
  f.span?.map fun span => ((span.slice? b).map (decode f.layout)).getD .null

/-- What an optional field decodes to, if it is present. -/
def optionalValue? (table data : Nat) (b : Bytes) (f : Field Layout) : Option Value :=
  f.ordinal?.bind fun ordinal =>
    (optionalSpan? table data b ordinal).map fun span => decode f.layout (span.slice b)

theorem decodeFixed_eq (fields : List (Field Layout)) (b : Bytes) (out : List (String × Value)) :
    decodeFixed fields b out = Value.setAll (namedParts (fixedValue? b) fields) out := by
  induction fields generalizing out with
  | nil => rw [decodeFixed]; rfl
  | cons f rest ih =>
    rw [decodeFixed, ih, namedParts_cons]
    cases hf : f.place with
    | optional k =>
      have hnone : fixedValue? b f = none := by rw [fixedValue?, Field.span?, hf]; rfl
      rw [hnone]
      rfl
    | fixed span =>
      have hsome : fixedValue? b f = some (((span.slice? b).map (decode f.layout)).getD .null) := by
        rw [fixedValue?, Field.span?, hf]
        rfl
      rw [hsome]
      dsimp only
      cases hslice : span.slice? b <;> rfl

theorem decodeOptional_eq (table data : Nat) (fields : List (Field Layout)) (b : Bytes)
    (out : List (String × Value)) :
    decodeOptional table data fields b out
      = Value.setAll (namedParts (optionalValue? table data b) fields) out := by
  induction fields generalizing out with
  | nil => rw [decodeOptional]; rfl
  | cons f rest ih =>
    rw [decodeOptional, ih, namedParts_cons]
    cases hf : f.place with
    | fixed span =>
      have hnone : optionalValue? table data b f = none := by
        rw [optionalValue?, Field.ordinal?, hf]
        rfl
      rw [hnone]
      rfl
    | optional k =>
      have hvalue : optionalValue? table data b f
          = (optionalSpan? table data b k).map fun span => decode f.layout (span.slice b) := by
        rw [optionalValue?, Field.ordinal?, hf]
        rfl
      rw [hvalue]
      dsimp only
      cases hspan : optionalSpan? table data b k <;> rfl

/-- What a field of a record decodes to, if the record has it. -/
def fieldValue? (layout : Layout) (b : Bytes) (f : Field Layout) : Option Value :=
  match layout with
  | .object _ => fixedValue? b f
  | .map fields => (optionalValue? (fixedRegion fields) (dataStart fields) b f).or (fixedValue? b f)
  | _ => none

/-- The fields that a record decodes to. -/
def decodedFields (layout : Layout) (b : Bytes) : List (String × Value) :=
  match layout with
  | .object fields => decodeFixed fields b []
  | .map fields =>
    decodeOptional (fixedRegion fields) (dataStart fields) fields b (decodeFixed fields b [])
  | _ => []

theorem decode_record {layout : Layout} (h : layout.fields? = some fields) (b : Bytes) :
    decode layout b = .record (decodedFields layout b) := by
  cases layout with
  | object fields' => rw [decode]; rfl
  | map fields' => rw [decode]; rfl
  | _ => cases h

theorem ordered_decodedFields (layout : Layout) (b : Bytes) :
    Value.Ordered (decodedFields layout b) := by
  cases layout with
  | object fields =>
    rw [decodedFields, decodeFixed_eq]
    exact Value.Ordered.setAll List.Pairwise.nil _
  | map fields =>
    rw [decodedFields, decodeOptional_eq, decodeFixed_eq]
    exact (Value.Ordered.setAll List.Pairwise.nil _).setAll _
  | _ => exact List.Pairwise.nil

theorem nodup_namedParts (hnames : (fields.map Field.name).Nodup)
    (part? : Field Layout → Option Value) : ((namedParts part? fields).map (·.1)).Nodup :=
  hnames.sublist (map_fst_namedParts_sublist part? fields)

/-- **Records.**  A record has under the name of a field what that field decodes to. -/
theorem lookup_decodedFields {layout : Layout} (h : layout.fields? = some fields)
    (hnames : (fields.map Field.name).Nodup) (hf : f ∈ fields) (b : Bytes) :
    (decodedFields layout b).lookup f.name = fieldValue? layout b f := by
  cases layout with
  | object fields' =>
    cases h
    rw [decodedFields, decodeFixed_eq, Value.lookup_setAll (nodup_namedParts hnames _),
      lookup_namedParts hnames hf]
    exact Option.or_none
  | map fields' =>
    cases h
    rw [decodedFields, decodeOptional_eq, decodeFixed_eq,
      Value.lookup_setAll (nodup_namedParts hnames _), lookup_namedParts hnames hf,
      Value.lookup_setAll (nodup_namedParts hnames _), lookup_namedParts hnames hf, fieldValue?]
    exact congrArg _ Option.or_none
  | _ => cases h

/-- A record has nothing under any other name. -/
theorem lookup_decodedFields_eq_none {layout : Layout} (h : layout.fields? = some fields)
    (hnames : (fields.map Field.name).Nodup) (hname : name ∉ fields.map Field.name) (b : Bytes) :
    (decodedFields layout b).lookup name = none := by
  cases layout with
  | object fields' =>
    cases h
    rw [decodedFields, decodeFixed_eq, Value.lookup_setAll (nodup_namedParts hnames _),
      lookup_namedParts_eq_none hname]
    rfl
  | map fields' =>
    cases h
    rw [decodedFields, decodeOptional_eq, decodeFixed_eq,
      Value.lookup_setAll (nodup_namedParts hnames _), lookup_namedParts_eq_none hname,
      Value.lookup_setAll (nodup_namedParts hnames _), lookup_namedParts_eq_none hname]
    rfl
  | _ => cases h

/-- A record has no fields but those of its layout. -/
theorem mem_names_of_mem_decodedFields {layout : Layout} (h : layout.fields? = some fields)
    (hnames : (fields.map Field.name).Nodup) (hname : name ∈ (decodedFields layout b).map (·.1)) :
    name ∈ fields.map Field.name := by
  by_contra hother
  obtain ⟨x, hx⟩ := Value.exists_lookup hname
  rw [lookup_decodedFields_eq_none h hnames hother] at hx
  cases hx

/-! ## Lists -/

/-- Each slot of an array fits. -/
theorem fits_slot {stride capacity i : Nat} (hi : i < slotCount stride capacity b) :
    (⟨i * stride, stride⟩ : Span).Fits b := by
  have hle := slotCount_mul_le stride capacity b
  have hmul : (i + 1) * stride ≤ slotCount stride capacity b * stride := Nat.mul_le_mul_right _ hi
  rw [Nat.succ_mul] at hmul
  simp only [Span.Fits, Span.stop]
  omega

theorem decode_array (item : Layout) (stride capacity : Nat) (b : Bytes) :
    decode (.array item stride capacity) b
      = .list ((List.range (slotCount stride capacity b)).map fun i =>
        decode item (Span.slice ⟨i * stride, stride⟩ b)) := by
  rw [decode, ← List.filterMap_eq_map]
  congr 1
  apply List.filterMap_congr
  intro i hi
  rw [slotSpan?, if_pos (List.mem_range.mp hi)]
  rfl

theorem decode_packed (p : Primitive) (capacity : Nat) (b : Bytes) :
    decode (.packed p capacity) b
      = .list ((List.range (slotCount p.width capacity b)).map fun i =>
        p.read (b.drop (packedOffset p i))) := by
  rw [decode]

/-- What an item of a vector decodes to, a hole to null. -/
def vectorItem (item : Layout) (b : Bytes) (i : Nat) : Value :=
  ((vectorSpan? b i).map fun span => decode item (span.slice b)).getD .null

theorem decode_vector (item : Layout) (limit : Option Nat) (b : Bytes) :
    decode (.vector item limit) b
      = .list ((List.range (storedCount b)).map (vectorItem item b)) := by
  rw [decode]
  congr 2
  funext i
  unfold vectorItem
  cases vectorSpan? b i <;> rfl

/-! ## No holes -/

/-- Decoding never gives the hole. -/
theorem decode_ne_null (layout : Layout) (b : Bytes) : decode layout b ≠ .null := by
  cases layout with
  | primitive p =>
    rw [decode, Primitive.read]
    cases p <;> rw [Primitive.meaning] <;> simp [Primitive.signed]
  | _ => rw [decode]; simp

end Layout

end BinarySchema
