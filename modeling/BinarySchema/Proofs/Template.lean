/-
# Records over their defaults

The encoding of a record by itself begins with its fixed region: the defaults of the layout, over
which the fields that the record has are written (`WellFormed.toBytes_record`).  So the bytes of a
field at a fixed place are what is written of it over its own defaults (`WellFormed.slice_toBytes`),
and the first byte of a record with an integer of one byte there is that integer
(`WellFormed.head?_toBytes`).
-/
import BinarySchema.Proofs.Access
import BinarySchema.Proofs.Splice

namespace BinarySchema

/-! ## One byte -/

theorem slice_zeros {s : Span} {n : Nat} (h : s.stop ≤ n) : s.slice (zeros n) = zeros s.length := by
  unfold Span.stop at h
  rw [Span.slice, zeros, List.drop_replicate, List.take_replicate, Nat.min_eq_left (by omega), zeros]

/-- Under every span, zeros are zeros. -/
theorem exists_slice_zeros (s : Span) (n : Nat) : ∃ k, s.slice (zeros n) = zeros k := by
  refine ⟨min s.length (n - s.start), ?_⟩
  rw [Span.slice, zeros, List.drop_replicate, List.take_replicate, zeros]

theorem head?_of_slice {b : Bytes} {byte : UInt8} (h : Span.slice ⟨0, 1⟩ b = [byte]) :
    b.head? = some byte := by
  cases b with
  | nil => cases h
  | cons first rest => exact congrArg List.head? h

/-- The byte that stores a value as an integer. -/
def Value.byte (v : Value) : UInt8 := (v.toInt64?.getD 0).toUInt64.toUInt8

namespace Primitive

/-- An integer of one byte. -/
def IsByte (p : Primitive) : Prop := p = .int8 ∨ p = .uint8

theorem IsByte.write {p : Primitive} (h : p.IsByte) (v : Value) : p.write v = [v.byte] := by
  rcases h with rfl | rfl <;> rfl

end Primitive

namespace Layout

variable {layout : Layout} {fields : List (Field Layout)} {f : Field Layout} {v : Value}

/-! ## Fields -/

theorem fieldNamed?_spec {name : String} (h : fieldNamed? fields name = some f) :
    f ∈ fields ∧ f.name = name := by
  obtain ⟨i, hi, hf⟩ := Option.bind_eq_some_iff.mp h
  have hspec := Window.fieldIndex?_spec fields name
  rw [hi] at hspec
  obtain ⟨g, hg, hname⟩ := hspec
  cases hf.symm.trans hg
  exact ⟨List.mem_of_getElem? hf, hname⟩

/-- The parts of a well-formed record are well-formed, and arranged under names of their own. -/
theorem WellFormed.record (hwf : layout.WellFormed) (hfields : layout.fields? = some fields) :
    (∀ f ∈ fields, f.layout.WellFormed) ∧ Arranged 0 0 fields ∧ (fields.map Field.name).Nodup := by
  cases hwf with
  | object hparts harranged hfixed hnames =>
    cases hfields
    exact ⟨hparts, harranged, hnames⟩
  | map hparts harranged hnames =>
    cases hfields
    exact ⟨hparts, harranged, hnames⟩
  | _ => cases hfields

/-! ## The fixed region -/

/-- **Fixed region.**  A record that is encoded by itself begins with its fields at fixed places,
written over the defaults. -/
theorem WellFormed.toBytes_record (hwf : layout.WellFormed) (hfields : layout.fields? = some fields)
    (v : Value) : ∃ rest, toBytes layout v = writeFixed fields v (template fields) ++ rest := by
  have hkeep : ∀ f ∈ fields, f.layout.KeepsLength :=
    fun f hf => ((hwf.record hfields).1 f hf).keepsLength
  cases hwf with
  | object hparts harranged hfixed hnames =>
    cases hfields
    -- an object is its fixed region
    have hseed : seed (.object fields) (zeros (fixedRegion fields)) = template fields := by
      have hle : (template fields).length ≤ (zeros (fixedRegion fields)).length := by
        rw [length_template hkeep, length_zeros]
      rw [seed, ← template, overlay_of_le hle, length_template hkeep,
        List.drop_of_length_le (le_of_eq (length_zeros _)), List.append_nil]
    have hlength : (writeFixed fields v (template fields)).length = fixedRegion fields := by
      rw [length_writeFixed hkeep, length_template hkeep]
    have hfresh : freshLength (.object fields) v = fixedRegion fields := rfl
    refine ⟨[], ?_⟩
    rw [toBytes, encodeOver, amend, hfresh, hseed, write,
      if_neg (by rw [length_template hkeep]; exact lt_irrefl _)]
    rw [onFront, List.take_of_length_le (le_of_eq (length_template hkeep)),
      List.drop_of_length_le (le_of_eq (length_template hkeep)), Unsupplied.prepare,
      Written.value]
    exact (List.take_of_length_le (le_of_eq (by rw [List.append_nil, hlength])))
  | map hparts harranged hnames =>
    cases hfields
    have hroom : dataStart fields ≤ freshLength (.map fields) v :=
      leastLength_le_freshLength (.map fields) v
    have hregion := le_trans (fixedRegion_le_dataStart fields) hroom
    have hseed : (seed (.map fields) (zeros (freshLength (.map fields) v))).length
        = freshLength (.map fields) v := by
      rw [(keepsLength_map harranged hkeep).2, length_zeros]
    rw [toBytes, encodeOver, amend, write_map harranged hkeep (by rw [hseed]; exact hroom) rfl,
      Written.value_append, fixedBytes_seed hkeep (by rw [length_zeros]; exact hregion), mapImage,
      List.append_assoc]
    exact ⟨_, rfl⟩
  | _ => cases hfields

/-- **Fixed places.**  The bytes of a field at a fixed place are what is written of it over its own
defaults. -/
theorem WellFormed.slice_toBytes (hwf : layout.WellFormed) (hfields : layout.fields? = some fields)
    (hf : f ∈ fields) {span : Span} (hplace : f.place = .fixed span) (v : Value) :
    span.slice (toBytes layout v) = supplySlot v f (defaultSlot f (zeros span.length)) := by
  obtain ⟨hparts, harranged, -⟩ := hwf.record hfields
  have hkeep : ∀ f ∈ fields, f.layout.KeepsLength := fun f hf => (hparts f hf).keepsLength
  have htemplate := length_template hkeep
  have hfits : span.Fits (writeFixed fields v (template fields)) := by
    rw [Span.Fits, length_writeFixed hkeep, htemplate]
    exact stop_le_fixedRegion hf hplace
  obtain ⟨rest, hbytes⟩ := hwf.toBytes_record hfields v
  rw [hbytes, Span.slice_append hfits, writeFixed_eq, slice_modifyPlaces harranged
    (fun g hg => length_supplySlot (hkeep g hg) v) (allFit_of_length htemplate) hf hplace, template,
    slice_writeDefaults harranged hkeep (allFit_of_length (length_zeros _)) hf hplace,
    slice_zeros (stop_le_fixedRegion hf hplace)]

/-! ## Integers of one byte -/

theorem bytes_write_byte {p : Primitive} (hp : p.IsByte) (u : Unsupplied) {slot : Bytes}
    (hslot : slot.length = 1) : (write u (.primitive p) v slot).bytes = [v.byte] := by
  have hwidth : p.width = 1 := by rcases hp with rfl | rfl <;> rfl
  rw [write_primitive_slot u v (hslot.trans hwidth.symm)]
  exact hp.write v

/-- **First bytes.**  Where the first byte of a record is the place of an integer of one byte, it is
the integer that the record has there, or else its default. -/
theorem WellFormed.head?_toBytes (hwf : layout.WellFormed) (hfields : layout.fields? = some fields)
    (hf : f ∈ fields) (hplace : f.place = .fixed ⟨0, 1⟩) {p : Primitive}
    (hlayout : f.layout = .primitive p) (hp : p.IsByte) {x : Value} (hx : f.pick? v = some x) :
    (toBytes layout v).head? = some x.byte := by
  apply head?_of_slice
  have hkeep : f.layout.KeepsLength := ((hwf.record hfields).1 f hf).keepsLength
  have hslot : (defaultSlot f (zeros 1)).length = 1 := by
    rw [length_defaultSlot hkeep, length_zeros]
  have hseed : (seed f.layout (zeros 1)).length = 1 := by
    rw [hkeep.2, length_zeros]
  rw [hwf.slice_toBytes hfields hf hplace, supplySlot]
  cases hget : v.get? f.name with
  | some y =>
    rw [Field.pick?, hget] at hx
    cases hx
    dsimp only
    rw [hlayout]
    exact bytes_write_byte hp .kept hslot
  | none =>
    rw [Field.pick?, hget, Option.none_or] at hx
    dsimp only
    rw [defaultSlot, hx]
    dsimp only
    rw [encodeOver, amend]
    rw [hlayout] at hseed ⊢
    exact bytes_write_byte hp .kept hseed

end Layout

end BinarySchema
