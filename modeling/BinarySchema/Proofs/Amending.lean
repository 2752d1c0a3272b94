/-
# Amending values of one size

Amending writes what a value supplies and keeps the other bytes.  All parts of an object or an array
lie at fixed places, so that this can be said of each part by itself: `supply` is what becomes of the
bytes of a part, and amending the whole supplies each part with what the value gives there
(`slice_amend`).  Along paths the same follows by induction (`slice_supply`).  At the end of a path
is a leaf, which is written in full wherever it is written at all (`amend_leaf`), so that the bytes
of every leaf of an amended value are known (`amend_exactly`).
-/
import BinarySchema.Proofs.Edit
import BinarySchema.Proofs.RoundTrip
import BinarySchema.Proofs.Template

namespace BinarySchema

namespace Layout

variable {layout part leaf : Layout} {fields : List (Field Layout)} {v x : Value} {b slot : Bytes}
  {h : Hop} {path : List Hop} {span : Span} {n : Nat}

/-! ## Parts at fixed places -/

theorem slice_whole (hb : b.length = n) : Span.slice ⟨0, n⟩ b = b :=
  List.take_of_length_le (le_of_eq hb)

/-- Whether the layout is a scalar or a packed array, which are written as a whole. -/
def IsLeaf : Layout → Prop
  | .primitive _ | .text _ | .blob _ | .packed _ _ => True
  | _ => False

/-- The part that a hop leads to, and where its bytes are, for the field of an object and the item
of an array. -/
def placedPart? : Layout → Hop → Option (Layout × Span)
  | .object fields, .field name =>
    (fieldNamed? fields name).bind fun f => f.span?.map (f.layout, ·)
  | .array item stride capacity, .item i =>
    if i < capacity then some (item, ⟨itemOffset stride i, stride⟩) else none
  | _, _ => none

/-- The part that a path leads to, and where its bytes are in the whole. -/
def placed? (layout : Layout) : List Hop → Option (Layout × Span)
  | [] => layout.fixedLength?.map fun n => (layout, ⟨0, n⟩)
  | h :: path => (layout.placedPart? h).bind fun (part, outer) =>
    (part.placed? path).map fun (leaf, inner) => (leaf, ⟨outer.start + inner.start, inner.length⟩)

theorem placedPart?_object (hpart : placedPart? (.object fields) h = some (part, span)) :
    ∃ f ∈ fields, h = .field f.name ∧ part = f.layout ∧ f.place = .fixed span := by
  cases h with
  | field name =>
    obtain ⟨f, hnamed, hspan⟩ := Option.bind_eq_some_iff.mp hpart
    obtain ⟨span', hplace, heq⟩ := Option.map_eq_some_iff.mp hspan
    cases heq
    obtain ⟨hf, rfl⟩ := fieldNamed?_spec hnamed
    refine ⟨f, hf, rfl, rfl, ?_⟩
    rw [Field.span?] at hplace
    cases hf' : f.place with
    | fixed t =>
      rw [hf', Option.some.injEq] at hplace
      rw [hplace]
    | optional k =>
      rw [hf'] at hplace
      cases hplace
  | _ => cases hpart

theorem placedPart?_array {item : Layout} {stride capacity : Nat}
    (hpart : placedPart? (.array item stride capacity) h = some (part, span)) :
    ∃ i < capacity, h = .item i ∧ part = item ∧ span = ⟨i * stride, stride⟩ := by
  cases h with
  | item i =>
    rw [placedPart?] at hpart
    split_ifs at hpart with hi
    cases hpart
    exact ⟨i, hi, rfl, rfl, rfl⟩
  | _ => cases hpart

theorem placedPart?_field (hnames : (fields.map Field.name).Nodup) {f : Field Layout}
    (hf : f ∈ fields) (hplace : f.place = .fixed span) :
    placedPart? (.object fields) (.field f.name) = some (f.layout, span) := by
  have hnamed : fieldNamed? fields f.name = some f := by
    have hspec := Window.fieldIndex?_spec fields f.name
    rw [fieldNamed?]
    cases hindex : fieldIndex? fields f.name with
    | none =>
      rw [hindex] at hspec
      exact absurd (List.mem_map_of_mem hf) hspec
    | some i =>
      rw [hindex] at hspec
      obtain ⟨g, hg, hname⟩ := hspec
      rw [Option.bind_some, hg,
        List.inj_on_of_nodup_map hnames (List.mem_of_getElem? hg) hf hname]
  rw [placedPart?, hnamed, Option.bind_some, Field.span?, hplace]
  rfl

/-- A part lies inside the whole, and has one size as well. -/
theorem WellFormed.placedPart? (hwf : layout.WellFormed) (hlayout : layout.fixedLength? = some n)
    (hpart : layout.placedPart? h = some (part, span)) :
    part.WellFormed ∧ part.fixedLength? = some span.length ∧ span.stop ≤ n := by
  cases hwf with
  | object hparts harranged hfixed hnames =>
    obtain ⟨f, hf, -, rfl, hplace⟩ := placedPart?_object hpart
    exact ⟨hparts f hf, harranged.length_eq hf hplace,
      (stop_le_fixedRegion hf hplace).trans_eq (Option.some.inj hlayout)⟩
  | array capacity hitem hstride =>
    obtain ⟨i, hi, -, rfl, rfl⟩ := placedPart?_array hpart
    refine ⟨hitem, hstride, ?_⟩
    rw [Span.stop, ← Option.some.inj hlayout, ← Nat.succ_mul]
    exact Nat.mul_le_mul_right _ hi
  | _ => cases h <;> cases hpart

/-- What a path leads to lies inside the whole, and has one size as well. -/
theorem WellFormed.placed? (hwf : layout.WellFormed) (hlayout : layout.fixedLength? = some n)
    (hpath : layout.placed? path = some (leaf, span)) :
    leaf.WellFormed ∧ leaf.fixedLength? = some span.length ∧ span.stop ≤ n := by
  induction path generalizing layout n leaf span with
  | nil =>
    rw [Layout.placed?, hlayout, Option.map_some] at hpath
    cases hpath
    exact ⟨hwf, hlayout, by rw [Span.stop, Nat.zero_add]⟩
  | cons h path ih =>
    obtain ⟨⟨part, outer⟩, hpart, hrest⟩ := Option.bind_eq_some_iff.mp hpath
    obtain ⟨⟨leaf', inner⟩, hinner, heq⟩ := Option.map_eq_some_iff.mp hrest
    cases heq
    obtain ⟨hwf', hlength, hinside⟩ := hwf.placedPart? hlayout hpart
    obtain ⟨hleaf, hleafLength, hinside'⟩ := ih hwf' hlength hinner
    refine ⟨hleaf, hleafLength, ?_⟩
    unfold Span.stop at *
    dsimp only at *
    omega

/-- The bytes at the end of a path are found by its first hop and the rest of it. -/
theorem WellFormed.placed?_cons (hwf : layout.WellFormed)
    (hlayout : layout.fixedLength? = some b.length)
    (hpath : layout.placed? (h :: path) = some (leaf, span)) :
    ∃ part outer inner, layout.placedPart? h = some (part, outer) ∧ part.WellFormed
      ∧ part.fixedLength? = some (outer.slice b).length ∧ part.placed? path = some (leaf, inner)
      ∧ ∀ c, span.slice c = inner.slice (outer.slice c) := by
  obtain ⟨⟨part, outer⟩, hpart, hrest⟩ := Option.bind_eq_some_iff.mp hpath
  obtain ⟨⟨leaf', inner⟩, hinner, heq⟩ := Option.map_eq_some_iff.mp hrest
  cases heq
  obtain ⟨hwf', hlength, hfits⟩ := hwf.placedPart? hlayout hpart
  obtain ⟨-, -, hinside⟩ := hwf'.placed? hlength hinner
  rw [← Span.length_slice_of_fits hfits] at hlength
  exact ⟨part, outer, inner, hpart, hwf', hlength, hinner, fun c =>
    (Span.slice_slice hinside c).symm⟩

/-- A window reaches a part there. -/
theorem part?_of_placedPart? (hwf : layout.WellFormed)
    (hlayout : layout.fixedLength? = some b.length)
    (hpart : layout.placedPart? h = some (part, span)) :
    Window.part? ⟨layout, b⟩ h = some ⟨part, span.slice b⟩ := by
  obtain ⟨-, -, hfits⟩ := hwf.placedPart? hlayout hpart
  refine Window.part?_of_target? ?_ hfits
  cases layout with
  | object fields =>
    cases h with
    | field name =>
      obtain ⟨f, hnamed, hspan⟩ := Option.bind_eq_some_iff.mp hpart
      obtain ⟨i, hindex, hf⟩ := Option.bind_eq_some_iff.mp hnamed
      obtain ⟨span', hplace, heq⟩ := Option.map_eq_some_iff.mp hspan
      cases heq
      simp [Window.target?, Window.fieldIndex?, fields?, hindex, fieldSpan?, hf, hplace]
    | _ => cases hpart
  | array item stride capacity =>
    obtain ⟨i, hi, rfl, rfl, rfl⟩ := placedPart?_array hpart
    have hcount : slotCount stride capacity b = capacity :=
      slotCount_eq_capacity (le_of_eq (Option.some.inj hlayout))
    rw [Window.target?, itemSpan?, slotSpan?, hcount, if_pos hi]
    rfl
  | _ => cases h <;> cases hpart

/-- A window reaches the end of a path there. -/
theorem follow?_of_placed? (hwf : layout.WellFormed)
    (hlayout : layout.fixedLength? = some b.length)
    (hpath : layout.placed? path = some (leaf, span)) :
    Window.follow? ⟨layout, b⟩ path = some ⟨leaf, span.slice b⟩ := by
  induction path generalizing layout b leaf span with
  | nil =>
    rw [Layout.placed?, hlayout, Option.map_some] at hpath
    cases hpath
    rw [Window.follow?, slice_whole rfl]
  | cons h path ih =>
    obtain ⟨part, outer, inner, hpart, hwf', hlength, hinner, hslice⟩ :=
      hwf.placed?_cons hlayout hpath
    rw [Window.follow?, part?_of_placedPart? hwf hlayout hpart, Option.bind_some,
      ih hwf' hlength hinner, hslice]

/-! ## Supplying a part -/

/-- What becomes of the bytes of a part: what is given is written over them.  A hole gives
nothing. -/
def supply (layout : Layout) (v : Option Value) (slot : Bytes) : Bytes :=
  match Value.nonNull v with
  | none => slot
  | some x => (amend layout x slot).bytes

theorem supply_none {given : Option Value} (hgiven : Value.nonNull given = none) :
    supply layout given slot = slot := by
  rw [supply, hgiven]

theorem supply_some {given : Option Value} (hgiven : Value.nonNull given = some x) :
    supply layout given slot = (amend layout x slot).bytes := by
  rw [supply, hgiven]

theorem length_supply (hkeep : layout.KeepsLength) (given : Option Value) (slot : Bytes) :
    (supply layout given slot).length = slot.length := by
  rw [supply]
  cases Value.nonNull given with
  | none => rfl
  | some x => exact (hkeep.1 .kept x slot).1

theorem supplySlot_eq (v : Value) (f : Field Layout) (slot : Bytes) :
    supplySlot v f slot = supply f.layout (v.get? f.name) slot := by
  rw [supplySlot, supply, Value.nonNull_get?]
  rfl

theorem supplyItem_eq (item : Layout) (i : Value) (slot : Bytes) :
    supplyItem .kept item i slot = supply item (some i) slot := by
  cases i <;> rfl

/-- **One hop.**  Amending a value of one size supplies each of its parts. -/
theorem WellFormed.slice_amend (hwf : layout.WellFormed)
    (hlayout : layout.fixedLength? = some b.length)
    (hpart : layout.placedPart? h = some (part, span)) (v : Value) :
    span.slice (amend layout v b).bytes = supply part (v.part? h) (span.slice b) := by
  cases hwf with
  | @object fields hparts harranged hfixed hnames =>
    obtain ⟨f, hf, rfl, rfl, hplace⟩ := placedPart?_object hpart
    have hregion : fixedRegion fields = b.length := Option.some.inj hlayout
    rw [amend, write_object .kept v hregion, writeFixed_eq]
    refine Eq.trans ?_ (supplySlot_eq v f (span.slice b))
    exact slice_modifyPlaces harranged
      (fun g hg => length_supplySlot (hparts g hg).keepsLength v)
      (allFit_of_length hregion.symm) hf hplace
  | @array item stride capacity hitem hstride =>
    obtain ⟨i, hi, rfl, rfl, rfl⟩ := placedPart?_array hpart
    have hregion : capacity * stride = b.length := Option.some.inj hlayout
    have hkeep : ∀ g ∈ (v.items.take capacity).map (supplyItem .kept part), ∀ slot : Bytes,
        slot.length = stride → (g slot).length = stride := by
      intro g hg slot hslot
      obtain ⟨x, -, rfl⟩ := List.mem_map.mp hg
      rw [length_supplyItem hitem.keepsLength, hslot]
    have hroom : ((v.items.take capacity).map (supplyItem .kept part)).length * stride
        ≤ b.length := by
      rw [← hregion, List.length_map]
      exact Nat.mul_le_mul_right _ (List.length_take_le _ _)
    rw [amend, write_array .kept v hregion, Unsupplied.prepare, Value.part?_item]
    dsimp only
    -- items behind the last one that is given keep their bytes
    rcases Nat.lt_or_ge i v.items.length with hgiven | hgiven
    · have hi' : i < ((v.items.take capacity).map (supplyItem .kept part)).length := by
        rw [List.length_map, List.length_take]
        omega
      rw [slice_onSlots hkeep hroom hi', List.getElem_map, List.getElem_take, supplyItem_eq,
        List.getElem?_eq_getElem hgiven]
    · rw [slice_onSlots_of_le hkeep hroom
        (by rw [List.length_map]; exact le_trans (List.length_take_le' _ _) hgiven),
        supply_none (by rw [List.getElem?_eq_none hgiven]; rfl)]
  | _ => cases h <;> cases hpart

/-- The same of a part that is supplied, if anything is given. -/
theorem WellFormed.slice_supply_one (hwf : layout.WellFormed)
    (hlayout : layout.fixedLength? = some b.length)
    (hpart : layout.placedPart? h = some (part, span)) (given : Option Value) :
    span.slice (supply layout given b)
      = supply part (given.bind (·.part? h)) (span.slice b) := by
  cases hgiven : Value.nonNull given with
  | some x =>
    rw [supply_some hgiven, hwf.slice_amend hlayout hpart, Value.eq_some_of_nonNull hgiven]
    rfl
  | none =>
    -- the hole has no parts
    rw [supply_none hgiven, supply_none]
    cases given with
    | none => rfl
    | some x =>
      cases x with
      | null => cases h <;> rfl
      | _ => cases hgiven

/-- **Paths.**  What is given at the end of a path is supplied there, and nowhere else. -/
theorem WellFormed.slice_supply (hwf : layout.WellFormed)
    (hlayout : layout.fixedLength? = some b.length)
    (hpath : layout.placed? path = some (leaf, span)) (given : Option Value) :
    span.slice (supply layout given b)
      = supply leaf (given.bind (·.follow? path)) (span.slice b) := by
  induction path generalizing layout b leaf span given with
  | nil =>
    rw [Layout.placed?, hlayout, Option.map_some] at hpath
    cases hpath
    have hself : given.bind (·.follow? []) = given := Option.bind_fun_some given
    rw [hself, slice_whole rfl, slice_whole (length_supply hwf.keepsLength given b)]
  | cons h path ih =>
    obtain ⟨part, outer, inner, hpart, hwf', hlength, hinner, hslice⟩ :=
      hwf.placed?_cons hlayout hpath
    rw [hslice, hslice, hwf.slice_supply_one hlayout hpart, ih hwf' hlength hinner,
      Option.bind_assoc]
    rfl

/-! ## Leaves -/

/-- The bytes of a leaf that its value does not need are cleared in any case. -/
theorem IsLeaf.amend_eq_encode (hleaf : leaf.IsLeaf) (x : Value) (b : Bytes) :
    amend leaf x b = encode leaf x b := by
  cases leaf with
  | primitive | text | blob | packed => rw [amend, encode, write, write]
  | _ => exact hleaf.elim

/-- **Leaves.**  A leaf in a slot of its size is written in full. -/
theorem WellFormed.amend_leaf (hwf : leaf.WellFormed) (hleaf : leaf.IsLeaf)
    (hlength : leaf.fixedLength? = some slot.length) (x : Value) :
    (amend leaf x slot).bytes = toBytes leaf x := by
  have hfresh := freshLength_of_fixedLength hlength x
  obtain ⟨e, ⟨-, hput⟩, hfull⟩ := splices_encode_of_not_isTable hwf
    (not_isTable_of_fixedLength hlength) x slot.length
  have he := hfull (le_of_eq hfresh)
  have hseed : (seed leaf (zeros slot.length)).length = slot.length := by
    rw [hwf.keepsLength.2, length_zeros]
  rw [hwf.toBytes_of_fixedLength hlength, encodeOver, hleaf.amend_eq_encode,
    hleaf.amend_eq_encode, hput _ rfl, hput _ hseed, he, hfresh, List.drop_length,
    List.drop_of_length_le (le_of_eq hseed)]

/-- The bytes of a leaf are the encoding of what is given at the end of its path, or else stay. -/
theorem WellFormed.slice_supply_leaf (hwf : layout.WellFormed)
    (hlayout : layout.fixedLength? = some b.length)
    (hpath : layout.placed? path = some (leaf, span)) (hleaf : leaf.IsLeaf) (given : Option Value) :
    span.slice (supply layout given b)
      = match Value.nonNull (given.bind (·.follow? path)) with
        | some x => toBytes leaf x
        | none => span.slice b := by
  obtain ⟨hleafWf, hlength, hinside⟩ := hwf.placed? hlayout hpath
  rw [← Span.length_slice_of_fits hinside] at hlength
  rw [hwf.slice_supply hlayout hpath]
  cases hx : Value.nonNull (given.bind (·.follow? path)) with
  | none => exact supply_none hx
  | some x =>
    rw [supply_some hx]
    exact hleafWf.amend_leaf hleaf hlength x

/-! ## Amending -/

/-- **Amending.**  Amending an object or an array, which is to say a layout of one size that is no
leaf, takes the whole of its bytes and keeps their number.  The bytes of each leaf, which are those
that a window to it has, become the encoding of what is given at the end of its path, where every
step of the path is given, and else they stay as they were. -/
theorem amend_exactly (hlayout : layout.IsCompiled) (hkind : ¬ layout.IsLeaf)
    (hlength : layout.fixedLength? = some b.length) (d : Value) :
    (amend layout d b).length = b.length ∧ (amend layout d b).bytes.length = b.length
    ∧ ∀ path leaf span, layout.placed? path = some (leaf, span) → leaf.IsLeaf →
      Window.follow? ⟨layout, b⟩ path = some ⟨leaf, span.slice b⟩
      ∧ span.slice (amend layout d b).bytes
        = match Value.nonNull (d.follow? path) with
          | some x => toBytes leaf x
          | none => span.slice b := by
  have hwf := hlayout.wellFormed
  have hfresh : b.length = freshLength layout d := (freshLength_of_fixedLength hlength d).symm
  refine ⟨length_write_fresh (not_isTable_of_fixedLength hlength) hfresh,
    (hwf.keepsLength.1 .kept d b).1, ?_⟩
  intro path leaf span hpath hleaf
  refine ⟨follow?_of_placed? hwf hlength hpath, ?_⟩
  cases path with
  | nil =>
    rw [Layout.placed?, hlength] at hpath
    cases hpath
    exact absurd hleaf hkind
  | cons h path =>
    obtain ⟨part, outer, inner, hpart, hwf', hpartLength, hinner, hslice⟩ :=
      hwf.placed?_cons hlength hpath
    rw [hslice, hwf.slice_amend hlength hpart, hwf'.slice_supply_leaf hpartLength hinner hleaf,
      ← hslice]
    rfl

/-- Of a crew of two, the second one grows older, and nothing else changes. -/
theorem amend_exactly_crew :
    let member : Layout := .object [⟨"name", .text (some 4), .fixed ⟨0, 4⟩, none, some 4⟩,
      ⟨"age", .primitive .uint8, .fixed ⟨4, 1⟩, none, none⟩]
    let layout : Layout := .object [⟨"id", .primitive .uint16, .fixed ⟨0, 2⟩, none, none⟩,
      ⟨"crew", .array member 5 2, .fixed ⟨2, 10⟩, none, none⟩]
    let b : Bytes := [1, 2, 65, 100, 97, 0, 30, 79, 116, 116, 111, 40]
    let d : Value := .record
      [("crew", .list [.null, .record [("age", .int 41), ("name", .null)], .text "Ada"])]
    (amend layout d b).length = 12 ∧ Span.slice ⟨11, 1⟩ (amend layout d b).bytes = [41]
      ∧ Span.slice ⟨7, 4⟩ (amend layout d b).bytes = [79, 116, 116, 111] := by
  intro member layout b d
  have hcompiled : layout.IsCompiled := .of_eval ⟨0⟩ (.object
    [("type", .text "object"), ("properties", .object
      [("id", .object [("type", .text "integer"), ("btype", .text "uint16")]),
      ("crew", .object [("type", .text "array"), ("maxItems", .number (.natural 2)),
        ("items", .object [("type", .text "object"), ("properties", .object
          [("name", .object [("type", .text "string"), ("maxLength", .number (.natural 4))]),
          ("age", .object [("type", .text "integer"), ("btype", .text "uint8")])])])])])]) (by cbv)
  obtain ⟨hlength, -, hleaves⟩ := amend_exactly hcompiled id (b := b) rfl d
  obtain ⟨-, hage⟩ := hleaves [.field "crew", .item 1, .field "age"] (.primitive .uint8) ⟨11, 1⟩
    rfl trivial
  obtain ⟨-, hname⟩ := hleaves [.field "crew", .item 1, .field "name"] (.text (some 4)) ⟨7, 4⟩
    rfl trivial
  exact ⟨hlength, hage.trans (by decide +kernel), hname⟩

end Layout

end BinarySchema
