/-
# No input faults

For every layout that a reachable catalog gives, neither a byte string nor a value makes the
programs built from operations that can fault stop with a fault (`IsCompiled.neverFaults`).  They
give what the library gives, so that the spans that the library finds are in bounds (`InBounds`) and
what it writes stays in the bytes that it was given.

Sums and products have no bound here.  The sizes that a schema names are taken to be small enough
for their products with a header word to be machine numbers.
-/
import BinarySchema.Proofs.CheckedRead

namespace BinarySchema

namespace Layout

/-- Reading any byte string gives what the library gives, without a fault. -/
structure ReadsSafely (layout : Layout) : Prop where
  /-- Decoding. -/
  decode : ∀ b, Checked.decode layout b = .ok (layout.decode b)
  /-- The number of bytes that are used. -/
  usedLength : ∀ b, Checked.usedLength layout b = .ok (layout.usedLength b)
  /-- The number of items. -/
  itemCount : ∀ b, Checked.itemCount layout b = .ok (layout.itemCount b)
  /-- The span of an item, also for a number that no item has. -/
  itemSpan? : ∀ b i, Checked.itemSpan? layout b i = .ok (layout.itemSpan? b i)
  /-- The span of a field, also for a position that no field has. -/
  fieldSpan? : ∀ b i, Checked.fieldSpan? layout b i = .ok (layout.fieldSpan? b i)
  /-- The span of the value under a key. -/
  entrySpan? : ∀ b k, Checked.entrySpan? layout b k = .ok (layout.entrySpan? b k)
  /-- The search for a value, also from behind the last item on. -/
  indexOf? : ∀ b v start, Checked.indexOf? layout b v start = .ok (layout.indexOf? b v start)

/-- The spans of parts lie inside the byte string. -/
structure InBounds (layout : Layout) : Prop where
  /-- The spans of items, and of the values of a dict by number. -/
  item : ∀ b i part span, layout.itemSpan? b i = some (part, span) → span.Fits b
  /-- The spans of the values of a dict by key. -/
  entry : ∀ b k part span, layout.entrySpan? b k = some (part, span) → span.Fits b
  /-- The spans of optional fields. -/
  optional : ∀ fields b i f k part span, layout.fields? = some fields → fields[i]? = some f →
    f.place = .optional k → layout.fieldSpan? b i = some (part, span) → span.Fits b

/-- Writing any value to any byte string gives what the library gives, without a fault, and takes no
more bytes than there are. -/
structure WritesSafely (layout : Layout) : Prop where
  /-- Writing with zeros for what is not supplied. -/
  encode : ∀ v b, Checked.encode layout v b = .ok (layout.encode v b)
    ∧ (layout.encode v b).length ≤ b.length
  /-- Writing over what is there. -/
  amend : ∀ v b, Checked.amend layout v b = .ok (layout.amend v b)
    ∧ (layout.amend v b).length ≤ b.length
  /-- Writing over the defaults. -/
  encodeOver : ∀ v b, Checked.encodeOver layout v b = .ok (layout.encodeOver v b)
    ∧ (layout.encodeOver v b).length ≤ b.length
  /-- Seeding with the defaults. -/
  seed : ∀ b, Checked.seed layout b = .ok (layout.seed b)

variable {layout : Layout}

theorem itemSpan?_fits {b : Bytes} {i : Nat} {part : Layout} {span : Span}
    (h : layout.itemSpan? b i = some (part, span)) : span.Fits b := by
  cases layout with
  | array item stride capacity =>
    obtain ⟨span', hspan, heq⟩ := Option.map_eq_some_iff.mp h
    cases heq
    rw [slotSpan?] at hspan
    split_ifs at hspan with hi
    cases hspan
    exact fits_slot hi
  | packed p capacity =>
    obtain ⟨span', hspan, heq⟩ := Option.map_eq_some_iff.mp h
    cases heq
    rw [packedSpan?] at hspan
    split_ifs at hspan with hi
    cases hspan
    exact Window.fits_packed hi
  | vector item limit =>
    obtain ⟨span', hspan, heq⟩ := Option.map_eq_some_iff.mp h
    cases heq
    exact Window.vectorSpan?_fits hspan
  | dict key keyLength value =>
    obtain ⟨span', hspan, heq⟩ := Option.map_eq_some_iff.mp h
    cases heq
    exact Window.vectorSpan?_fits hspan
  | _ => cases h

theorem entrySpan?_fits {b : Bytes} {k : Value} {part : Layout} {span : Span}
    (h : layout.entrySpan? b k = some (part, span)) : span.Fits b := by
  cases layout with
  | dict key keyLength value =>
    obtain ⟨i, -, hi⟩ := Option.bind_eq_some_iff.mp h
    obtain ⟨span', hspan, heq⟩ := Option.bind_eq_some_iff.mp hi
    cases heq
    exact Window.vectorSpan?_fits hspan
  | _ => cases h

/-- Only the offsets of optional fields are read from the byte string. -/
theorem fieldSpan?_fits {fields : List (Field Layout)} {f : Field Layout} {b : Bytes} {i k : Nat}
    {part : Layout} {span : Span} (hfields : layout.fields? = some fields)
    (hf : fields[i]? = some f) (hplace : f.place = .optional k)
    (h : layout.fieldSpan? b i = some (part, span)) : span.Fits b := by
  cases layout with
  | object fields' =>
    cases hfields
    rw [fieldSpan?, hf] at h
    simp only [Option.bind_eq_bind, Option.bind_some, Field.span?, hplace, Option.bind_none] at h
    cases h
  | map fields' =>
    cases hfields
    rw [fieldSpan?, hf] at h
    simp only [Option.bind_eq_bind, Option.bind_some, hplace] at h
    obtain ⟨span', hspan, heq⟩ := Option.bind_eq_some_iff.mp h
    cases heq
    exact storedSpan?_fits hspan
  | _ => cases hfields

/-- **No input faults.**  Whatever the bytes, the numbers, the keys and the values are, neither
reading nor writing faults; the spans of parts lie inside; and no more bytes are written than there
are. -/
theorem IsCompiled.neverFaults (h : layout.IsCompiled) :
    layout.ReadsSafely ∧ layout.InBounds ∧ layout.WritesSafely := by
  have hwf := h.wellFormed
  have hwrites := Checked.writes hwf
  have hkeeps := hwf.keepsLength
  refine ⟨?_, ?_, ?_⟩
  · exact {
      decode := Checked.decode_ok hwf
      usedLength := Checked.usedLength_ok layout
      itemCount := Checked.itemCount_ok layout
      itemSpan? := Checked.itemSpan?_ok layout
      fieldSpan? := Checked.fieldSpan?_ok layout
      entrySpan? := Checked.entrySpan?_ok hwf
      indexOf? := Checked.indexOf?_ok hwf }
  · exact {
      item := fun _ _ _ _ => itemSpan?_fits
      entry := fun _ _ _ _ => entrySpan?_fits
      optional := fun _ _ _ _ _ _ _ => fieldSpan?_fits }
  · exact {
      encode := fun v b => ⟨hwrites.write .cleared v b, (hkeeps.1 .cleared v b).2⟩
      amend := fun v b => ⟨hwrites.write .kept v b, (hkeeps.1 .kept v b).2⟩
      encodeOver := fun v b => ⟨congrFun (congrFun hwrites.encodeOver v) b,
        (hkeeps.encodeOver v b).2⟩
      seed := hwrites.seed }

/-- A dict of one entry whose value ends behind the byte string.  The word that says where the keys
begin is cut off with it, so that they are looked for at the front. -/
theorem neverFaults_cutDict :
    let layout : Layout := .dict (.text (some 3)) 3 (.primitive .int32)
    let b : Bytes := [1, 0, 0, 0, 12, 0, 0, 0, 200, 0, 0, 0]
    Checked.decode layout b = .ok (.record [("\x01", .null)])
      ∧ Checked.entrySpan? layout b (.text "ada") = .ok none
      ∧ (layout.encode (.record [("ada", .int 36)]) b).length ≤ 12 := by
  have hcompiled : IsCompiled (.dict (.text (some 3)) 3 (.primitive .int32)) :=
    .of_eval ⟨0⟩ (.object [("type", .text "object"), ("btype", .text "dict"),
      ("propertyNames", .object [("type", .text "string"), ("maxLength", .number (.natural 3))]),
      ("additionalProperties", .object [("type", .text "integer")])]) (by cbv)
  obtain ⟨hreads, -, hwrites⟩ := IsCompiled.neverFaults hcompiled
  refine ⟨?_, ?_, (hwrites.encode _ _).2⟩
  · rw [hreads.decode]
    rfl
  · rw [hreads.entrySpan?]
    rfl

end Layout

end BinarySchema
