/-
# Amending maps

Amending a map keeps the bytes of its fixed region wherever the record supplies nothing, as amending
an object does.  What lies behind the fixed region is not kept: the optional fields are placed anew,
from the record and the defaults alone, so that an optional field that the record does not have takes
its default or becomes a hole, whatever it was before (`amend_map`).
-/
import BinarySchema.Proofs.Degradation
import BinarySchema.Proofs.Edit

namespace BinarySchema

namespace Layout

variable {fields : List (Field Layout)} {f : Field Layout} {b room : Bytes} {d v : Value}

section

variable (hparts : ∀ f ∈ fields, f.layout.WellFormed) (harranged : Arranged 0 0 fields)

include hparts harranged

/-- **Fixed region.**  A field at a fixed place that the record does not have keeps its bytes. -/
theorem fieldValue?_amend_fixed (hf : f ∈ fields) {span : Span} (hplace : f.place = .fixed span)
    (hlacks : d.get? f.name = none) (hroom : dataStart fields ≤ b.length) :
    fieldValue? (.map fields) (amend (.map fields) d b).bytes f = fieldValue? (.map fields) b f := by
  have hkeep : ∀ f ∈ fields, f.layout.KeepsLength := fun f hf => (hparts f hf).keepsLength
  have hregion := le_trans (fixedRegion_le_dataStart fields) hroom
  have htake : (b.take (fixedRegion fields)).length = fixedRegion fields := by
    rw [List.length_take, Nat.min_eq_left hregion]
  have hfits : span.Fits (b.take (fixedRegion fields)) :=
    (stop_le_fixedRegion hf hplace).trans_eq htake.symm
  have hfits' : span.Fits b := le_trans (stop_le_fixedRegion hf hplace) hregion
  have hslice : span.slice (b.take (fixedRegion fields)) = span.slice b := by
    rw [← Span.slice_append hfits (b.drop (fixedRegion fields)), List.take_append_drop]
  have hsupply : supplySlot d f (span.slice b) = span.slice b := by rw [supplySlot, hlacks]
  rw [amend, write_map harranged hkeep hroom rfl,
    fieldValue?_mapImage_fixed (length_fixedBytes hkeep hregion) hf hplace,
    fieldValue?_map_fixed hplace hfits', fixedBytes, Unsupplied.prepare, writeFixed_eq,
    slice_modifyPlaces harranged (fun g hg => length_supplySlot (hkeep g hg) d)
      (allFit_of_length htake) hf hplace, hslice, hsupply]

/-- **Optional fields.**  An optional field reads as what the record has for it, or else its default,
whatever it was before. -/
theorem fieldValue?_amend_optional (hf : f ∈ fields) {k : Nat} (hplace : f.place = .optional k)
    (hroom : encodedLength (.map fields) d ≤ b.length)
    (hsmall : encodedLength (.map fields) d < 2 ^ 32) :
    fieldValue? (.map fields) (amend (.map fields) d b).bytes f
      = wholeValue? f.layout (optionalPart d f) := by
  have hkeep : ∀ f ∈ fields, f.layout.KeepsLength := fun f hf => (hparts f hf).keepsLength
  have hneeds : encodedLength (.map fields) d = dataStart fields + needs (optionalParts fields d) := by
    rw [encodedLength, needs_optionalParts]
  -- bytes behind those that the map needs play no part
  obtain ⟨front, back, rfl, hfront⟩ : ∃ front back, b = front ++ back
      ∧ front.length = encodedLength (.map fields) d :=
    ⟨_, _, (List.take_append_drop _ b).symm, by rw [List.length_take, Nat.min_eq_left hroom]⟩
  have hstart : dataStart fields ≤ front.length := by omega
  have hlength := length_mapImage_place (u := .kept) (v := d) hkeep hstart
  have hcount := length_place_optionalParts fields d (front.drop (dataStart fields))
  have hk := (harranged.ordinal_lt hf hplace).trans_eq hcount.symm
  rw [amend, write_map_append harranged hkeep (le_of_eq hfront.symm),
    write_map harranged hkeep hstart rfl]
  dsimp only
  rw [List.append_assoc, fieldValue?_mapImage_optional
    (length_fixedBytes hkeep (le_trans (fixedRegion_le_dataStart fields) hstart)) hcount (by omega)
    hplace hk]
  exact chunkValue?_optional_full hparts harranged hf hplace (by rw [List.length_drop]; omega)
    (by rw [List.length_drop]; omega) hk

/-- An optional field for which there is nothing to write becomes a hole. -/
theorem get?_amend_of_pick?_eq_none (hnames : (fields.map Field.name).Nodup) (hf : f ∈ fields)
    {k : Nat} (hplace : f.place = .optional k) (hpick : f.pick? d = none)
    (hroom : dataStart fields ≤ b.length) :
    (decode (.map fields) (amend (.map fields) d b).bytes).get? f.name = none := by
  have hkeep : ∀ f ∈ fields, f.layout.KeepsLength := fun f hf => (hparts f hf).keepsLength
  have hregion := le_trans (fixedRegion_le_dataStart fields) hroom
  have hfixed := length_fixedBytes (u := .kept) (v := d) hkeep hregion
  have hcount := length_place_optionalParts fields d (b.drop (dataStart fields))
  have hk := (harranged.ordinal_lt hf hplace).trans_eq hcount.symm
  have hk' := hk.trans_eq (length_place_fst _ _)
  have hnone : (optionalParts fields d)[k] = none := by
    rw [harranged.getElem_optionalParts hf hplace, optionalPart, hpick]
    rfl
  have hempty : (place (optionalParts fields d) (b.drop (dataStart fields))).1[k] = [] := by
    have hchunk := (place_spec (optionalParts fields d) (b.drop (dataStart fields))).get hk' hk
    rw [List.get_eq_getElem, List.get_eq_getElem, hnone] at hchunk
    obtain hempty | ⟨p, slot, hp, -⟩ := hchunk
    · exact hempty
    · cases hp
  have hspan (rest : Bytes) : optionalSpan? (fixedRegion fields) (dataStart fields)
      (mapImage (fixedBytes .kept fields d b)
        (place (optionalParts fields d) (b.drop (dataStart fields))).1 ++ rest) k = none := by
    rw [← optionalSpan?_mapImage_of_nil hk hempty, hfixed, hcount, ← dataStart_eq]
  rw [amend, write_map harranged hkeep hroom rfl, get?_decode_map hnames hf hplace, hspan,
    Option.map_none]

end

/-- **Amending maps.**  Where there is room for the map of a record, a field at a fixed place that the
record does not have reads as before.  An optional field is a hole where the record has nothing for
it and it has no default, and, as far as sizes fit a word, it reads as in a map of the record alone:
whatever it was before is gone. -/
theorem amend_map (hlayout : (Layout.map fields).IsCompiled) (d : Value)
    (hroom : encodedLength (.map fields) d ≤ b.length) :
    (∀ f ∈ fields, f.ordinal? = none → d.get? f.name = none →
      (decode (.map fields) (amend (.map fields) d b).bytes).get? f.name
        = (decode (.map fields) b).get? f.name)
    ∧ ∀ f ∈ fields, f.ordinal? ≠ none →
      (d.get? f.name = none → f.default = none →
        (decode (.map fields) (amend (.map fields) d b).bytes).get? f.name = none)
      ∧ (encodedLength (.map fields) d < 2 ^ 32 →
        (decode (.map fields) (amend (.map fields) d b).bytes).get? f.name
          = (normalize (.map fields) d).get? f.name) := by
  have hwf := hlayout.wellFormed
  have hstart : dataStart fields ≤ b.length :=
    le_trans (leastLength_le_encodedLength (.map fields) d) hroom
  cases hwf with
  | map hparts harranged hnames =>
    constructor
    · intro f hf hfixed hlacks
      obtain ⟨span, hplace⟩ := Window.exists_fixed_of_ordinal? hfixed
      rw [Value.get?_eq_nonNull, Value.get?_eq_nonNull, lookup_decode_map hnames hf,
        lookup_decode_map hnames hf,
        fieldValue?_amend_fixed hparts harranged hf hplace hlacks hstart]
    · intro f hf hoptional
      obtain ⟨k, hplace⟩ := exists_optional_of_ordinal? hoptional
      refine ⟨fun hlacks hdefault => ?_, fun hsmall => ?_⟩
      · have hpick : f.pick? d = none := by rw [Field.pick?, hlacks, Option.none_or, hdefault]
        exact get?_amend_of_pick?_eq_none hparts harranged hnames hf hplace hpick hstart
      · rw [Value.get?_eq_nonNull, Value.get?_eq_nonNull, lookup_decode_map hnames hf,
          fieldValue?_amend_optional hparts harranged hf hplace hroom hsmall,
          normalize_eq_whole hlayout.wellFormed d hsmall, lookup_whole_map hnames hf,
          wholeField?_optional hoptional]

/-- Of a name, a nick and a note only the name is kept: the note takes its default, and the nick is
lost. -/
theorem amend_map_note :
    let fields : List (Field Layout) := [⟨"name", .text (some 4), .fixed ⟨0, 4⟩, none, some 4⟩,
      ⟨"nick", .text none, .optional 0, none, none⟩,
      ⟨"note", .text none, .optional 1, some (.text "-"), none⟩]
    let v : Value := .record
      [("name", .text "Ada"), ("nick", .text "A."), ("note", .text "poet's daughter")]
    let d : Value := .record []
    let after := decode (.map fields) (amend (.map fields) d (toBytes (.map fields) v)).bytes
    after.get? "name" = (normalize (.map fields) v).get? "name" ∧ after.get? "nick" = none
      ∧ after.get? "note" = (normalize (.map fields) d).get? "note" := by
  intro fields v d after
  have hcompiled : (Layout.map fields).IsCompiled := .of_eval ⟨0⟩ (.object
    [("type", .text "object"), ("btype", .text "map"), ("required", .list [.text "name"]),
      ("properties", .object
        [("name", .object [("type", .text "string"), ("maxLength", .number (.natural 4))]),
        ("nick", .object [("type", .text "string")]),
        ("note", .object [("type", .text "string"), ("default", .text "-")])])]) (by cbv)
  obtain ⟨hfixed, hoptional⟩ := amend_map hcompiled d (b := toBytes (.map fields) v)
    (by decide +kernel)
  have hname := hfixed ⟨"name", .text (some 4), .fixed ⟨0, 4⟩, none, some 4⟩ (.head _) rfl rfl
  have hnick := (hoptional ⟨"nick", .text none, .optional 0, none, none⟩ (.tail _ (.head _))
    (by decide)).1 rfl rfl
  have hnote := (hoptional ⟨"note", .text none, .optional 1, some (.text "-"), none⟩
    (.tail _ (.tail _ (.head _))) (by decide)).2 (by decide +kernel)
  exact ⟨hname, hnick, hnote⟩

/-- Amending does not keep the optional fields of a map, though it keeps all others: a nick is lost. -/
theorem amend_map_forgets :
    ¬ ∀ (fields : List (Field Layout)) (v d : Value) (rest : Bytes),
      (Layout.map fields).IsCompiled →
      encodedLength (.map fields) d ≤ (toBytes (.map fields) v ++ rest).length →
      ∀ f ∈ fields, d.get? f.name = none →
        (decode (.map fields) (amend (.map fields) d (toBytes (.map fields) v ++ rest)).bytes).get?
            f.name
          = (decode (.map fields) (toBytes (.map fields) v ++ rest)).get? f.name := by
  intro h
  have hcompiled : (Layout.map [⟨"nick", .text none, .optional 0, none, none⟩]).IsCompiled :=
    .of_eval ⟨0⟩ (.object
      [("type", .text "object"), ("btype", .text "map"), ("properties", .object
        [("nick", .object [("type", .text "string")])])]) (by cbv)
  have hkept := h _ (.record [("nick", .text "Zaphod")]) (.record []) [] hcompiled
    (by decide +kernel) _ List.mem_cons_self rfl
  have hlost := congrArg Option.isSome hkept
  revert hlost
  decide +kernel

end Layout

end BinarySchema
