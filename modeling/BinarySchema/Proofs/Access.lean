/-
# Reading parts without decoding the whole

A window reaches a part of a value exactly where the decoded value has that part, and the part then
decodes to it (`Window.follow?_agrees`).  This holds of every byte string, also where tables are cut
off or point anywhere.  It is shown for one hop (`value_part?`) and then for whole paths by
induction.
-/
import BinarySchema.Proofs.Decode
import BinarySchema.Proofs.ReadSchema
import BinarySchema.Window

namespace BinarySchema

/-! ## Paths -/

namespace Value

/-- The item of a list with the given number, where a negative number counts from the end. -/
def itemFromEnd? (items : List Value) (i : Int) : Option Value :=
  if 0 ≤ i then items[i.toNat]?
  else if i.natAbs ≤ items.length then items[items.length - i.natAbs]? else none

/-- The part of a value that a hop leads to, for hops to fields by name and to items. -/
def part? (v : Value) : Hop → Option Value
  | .field name => v.get? name
  | .item i => v.items?.bind (·[i]?)
  | .itemFromEnd i => v.items?.bind (itemFromEnd? · i)
  | .fieldAt _ | .key _ => none

/-- The part of a value that a path leads to. -/
def follow? (v : Value) : List Hop → Option Value
  | [] => some v
  | h :: path => (v.part? h).bind (·.follow? path)

/-- The value, unless it is the hole. -/
def nonNull (v : Option Value) : Option Value := v.filter fun v => !v.isNull

theorem nonNull_some {v : Value} (h : v ≠ .null) : nonNull (some v) = some v := by
  rw [nonNull, Option.filter_some_pos]
  rw [isNull_eq_false h]
  rfl

theorem eq_some_of_nonNull {v : Option Value} {x : Value} (h : nonNull v = some x) : v = some x :=
  (Option.filter_eq_some_iff.mp h).1

/-- A field is what is found under its name, holes left out. -/
theorem get?_eq_nonNull (v : Value) (name : String) :
    v.get? name = nonNull (v.fields.lookup name) := by
  cases v <;> rfl

theorem nonNull_get? (v : Value) (name : String) : nonNull (v.get? name) = v.get? name := by
  rw [get?_eq_nonNull, nonNull, nonNull, Option.filter_filter]
  simp only [Bool.and_self]

/-- An item of a list, no other value having any. -/
theorem part?_item (v : Value) (i : Nat) : v.part? (.item i) = v.items[i]? := by
  cases v <;> rfl

/-- From the hole no hop leads anywhere. -/
theorem follow?_null (path : List Hop) : nonNull (follow? .null path) = none := by
  cases path with
  | nil => rfl
  | cons h path => cases h <;> rfl

end Value

namespace Hop

/-- Whether a hop goes to a field by name, or to an item. -/
def IsPlain : Hop → Prop
  | .field _ | .item _ | .itemFromEnd _ => True
  | .fieldAt _ | .key _ => False

end Hop

namespace Window

/-- The window that a path leads to. -/
def follow? (w : Window) : List Hop → Option Window
  | [] => some w
  | h :: path => (w.part? h).bind (·.follow? path)

/-- Whether the layout is that of a record with declared fields, or of a list. -/
def IsPlain (w : Window) : Prop :=
  match w.layout with
  | .object _ | .map _ | .array _ _ _ | .packed _ _ | .vector _ _ => True
  | _ => False

/-- Whether a path takes plain hops only, each from a window to such a record or list. -/
def Passes (w : Window) : List Hop → Prop
  | [] => True
  | h :: path => w.IsPlain ∧ h.IsPlain ∧ ∀ part, w.part? h = some part → part.Passes path

/-- Whether the layout is that of a list. -/
def IsList (w : Window) : Prop :=
  match w.layout with
  | .array _ _ _ | .packed _ _ | .vector _ _ => True
  | _ => False

/-! ## Where hops lead -/

open Layout

variable {w part : Window} {b : Bytes}

theorem part?_eq (w : Window) (h : Hop) :
    w.part? h = (w.target? h).bind fun target =>
      (target.2.slice? w.bytes).map fun bytes => ⟨target.1, bytes⟩ := by
  rw [part?]
  cases w.target? h with
  | none => rfl
  | some target =>
    obtain ⟨layout, span⟩ := target
    simp only [Option.bind_eq_bind, Option.bind_some, Option.pure_def]
    cases span.slice? w.bytes <;> rfl

theorem within_of_fieldSpan? {layout part : Layout} {i : Nat} {span : Span}
    (h : fieldSpan? layout b i = some (part, span)) : Within part layout := by
  cases layout with
  | object fields =>
    cases hf : fields[i]? with
    | none => simp [fieldSpan?, hf] at h
    | some f =>
      cases hspan : f.span? with
      | none => simp [fieldSpan?, hf, hspan] at h
      | some span' =>
        simp only [fieldSpan?, hf, hspan, Option.bind_eq_bind, Option.bind_some, Option.pure_def,
          Option.some.injEq, Prod.mk.injEq] at h
        rw [← h.1]
        exact .object (List.mem_of_getElem? hf) (.self _)
  | map fields =>
    cases hf : fields[i]? with
    | none => simp [fieldSpan?, hf] at h
    | some f =>
      -- either kind of place leads to a part with the layout of the field
      have hpart : part = f.layout := by
        simp only [fieldSpan?, hf, Option.bind_eq_bind, Option.bind_some, Option.pure_def] at h
        cases hplace : f.place with
        | fixed span' =>
          simp only [hplace, Option.some.injEq, Prod.mk.injEq] at h
          exact h.1.symm
        | optional k =>
          simp only [hplace, Option.bind_eq_some_iff, Option.some.injEq, Prod.mk.injEq] at h
          obtain ⟨span', -, heq, -⟩ := h
          exact heq.symm
      rw [hpart]
      exact .map (List.mem_of_getElem? hf) (.self _)
  | _ => cases h

theorem within_of_itemSpan? {layout part : Layout} {i : Nat} {span : Span}
    (h : itemSpan? layout b i = some (part, span)) :
    Within part layout ∨ ∃ p, part = .primitive p := by
  cases layout with
  | array item stride capacity =>
    obtain ⟨span', -, heq⟩ := Option.map_eq_some_iff.mp h
    cases heq
    exact Or.inl (.array (.self _))
  | packed p capacity =>
    obtain ⟨span', -, heq⟩ := Option.map_eq_some_iff.mp h
    cases heq
    exact Or.inr ⟨p, rfl⟩
  | vector item limit =>
    obtain ⟨span', -, heq⟩ := Option.map_eq_some_iff.mp h
    cases heq
    exact Or.inl (.vector (.self _))
  | dict key keyLength value =>
    obtain ⟨span', -, heq⟩ := Option.map_eq_some_iff.mp h
    cases heq
    exact Or.inl (.value (.self _))
  | _ => cases h

theorem within_of_entrySpan? {layout part : Layout} {k : Value} {span : Span}
    (h : entrySpan? layout b k = some (part, span)) : Within part layout := by
  cases layout with
  | dict key keyLength value =>
    simp only [entrySpan?, Option.bind_eq_bind, Option.bind_eq_some_iff, Option.pure_def,
      Option.some.injEq, Prod.mk.injEq] at h
    obtain ⟨i, -, span', -, heq, -⟩ := h
    rw [← heq]
    exact .value (.self _)
  | _ => cases h

/-- Every part of a window to a well-formed layout has a well-formed layout. -/
theorem wellFormed_target? {h : Hop} (hw : w.layout.WellFormed) {target : Layout × Span}
    (htarget : w.target? h = some target) : target.1.WellFormed := by
  obtain ⟨layout, span⟩ := target
  have hitem : ∀ i, w.layout.itemSpan? w.bytes i = some (layout, span) → layout.WellFormed := by
    intro i hi
    rcases within_of_itemSpan? hi with hwithin | ⟨p, rfl⟩
    · exact hw.within hwithin
    · exact .primitive p
  cases h with
  | field name =>
    obtain ⟨i, -, hi⟩ := Option.bind_eq_some_iff.mp htarget
    exact hw.within (within_of_fieldSpan? hi)
  | fieldAt i => exact hw.within (within_of_fieldSpan? htarget)
  | item i => exact hitem i htarget
  | itemFromEnd i =>
    obtain ⟨j, -, hj⟩ := Option.bind_eq_some_iff.mp htarget
    exact hitem j hj
  | key k => exact hw.within (within_of_entrySpan? htarget)

theorem wellFormed_part? {h : Hop} (hw : w.layout.WellFormed) (hpart : w.part? h = some part) :
    part.layout.WellFormed := by
  rw [part?_eq] at hpart
  obtain ⟨target, htarget, hbytes⟩ := Option.bind_eq_some_iff.mp hpart
  obtain ⟨bytes, -, rfl⟩ := Option.map_eq_some_iff.mp hbytes
  exact wellFormed_target? hw htarget

/-! ## Fields -/

theorem vectorSpan?_fits {i : Nat} {span : Span} (h : vectorSpan? b i = some span) :
    span.Fits b := by
  unfold vectorSpan? at h
  split_ifs at h
  exact storedSpan?_fits h

/-- A part that decodes to something, where a span may be missing or cut off. -/
theorem nonNull_getD (layout : Layout) (bytes : Option Bytes) :
    Value.nonNull (some ((bytes.map (decode layout)).getD .null)) = bytes.map (decode layout) := by
  cases bytes with
  | none => rfl
  | some bytes => exact Value.nonNull_some (decode_ne_null layout bytes)

/-- The bytes of a field decode to the field. -/
theorem decode_fieldSpan? {layout : Layout} {fields : List (Field Layout)} {f : Field Layout}
    {i : Nat} (hfields : layout.fields? = some fields) (hf : fields[i]? = some f) :
    ((fieldSpan? layout b i).bind fun target => (target.2.slice? b).map (decode target.1))
      = Value.nonNull (fieldValue? layout b f) := by
  cases layout with
  | object fields' =>
    cases hfields
    simp only [fieldSpan?, hf, fieldValue?, fixedValue?, Option.bind_eq_bind, Option.bind_some,
      Option.pure_def]
    cases f.span? with
    | none => rfl
    | some span => exact (nonNull_getD f.layout (span.slice? b)).symm
  | map fields' =>
    cases hfields
    rw [fieldSpan?, hf, fieldValue?, optionalValue?, fixedValue?, Field.span?, Field.ordinal?]
    cases hplace : f.place with
    | fixed span =>
      simp only [Option.bind_eq_bind, Option.bind_some, Option.pure_def, hplace]
      -- a fixed place may lie outside, and the field is missing then
      exact (nonNull_getD f.layout (span.slice? b)).symm
    | optional k =>
      simp only [Option.bind_eq_bind, Option.bind_some, Option.pure_def, hplace]
      cases hspan : optionalSpan? (fixedRegion fields) (dataStart fields) b k with
      | none => rfl
      | some span =>
        have hfits : span.Fits b := storedSpan?_fits hspan
        simp only [Option.bind_some, Span.slice?_of_fits hfits, Option.map_some, Option.some_or]
        exact (Value.nonNull_some (decode_ne_null _ _)).symm
  | _ => cases hfields

/-- The position of a field by name. -/
theorem fieldIndex?_spec (fields : List (Field Layout)) (name : String) :
    match Layout.fieldIndex? fields name with
    | some i => ∃ f, fields[i]? = some f ∧ f.name = name
    | none => name ∉ fields.map Field.name := by
  induction fields with
  | nil => exact List.not_mem_nil
  | cons f rest ih =>
    unfold Layout.fieldIndex?
    cases hrest : Layout.fieldIndex? rest name with
    | some i =>
      rw [hrest] at ih
      exact ih
    | none =>
      rw [hrest] at ih
      dsimp only
      split_ifs with hname
      · exact ⟨f, rfl, hname⟩
      · rw [List.map_cons, List.mem_cons, not_or]
        exact ⟨fun h => hname h.symm, ih⟩

theorem map_value_part? (w : Window) (h : Hop) :
    (w.part? h).map value = (w.target? h).bind fun target =>
      (target.2.slice? w.bytes).map (decode target.1) := by
  rw [part?_eq, Option.map_bind]
  congr 1
  funext target
  rw [Function.comp_apply, Option.map_map]
  rfl

/-- **Fields.**  A window reaches a field by name where the record has it. -/
theorem value_part?_field {fields : List (Field Layout)} (hfields : w.layout.fields? = some fields)
    (hnames : (fields.map Field.name).Nodup) (name : String) :
    (w.part? (.field name)).map value = Value.nonNull (w.value.part? (.field name)) := by
  have hvalue : w.value.part? (.field name)
      = Value.nonNull ((decodedFields w.layout w.bytes).lookup name) := by
    rw [value, decode_record hfields]
    rfl
  -- the lookup leaves holes out already
  have htwice : ∀ v, Value.nonNull (Value.nonNull v) = Value.nonNull v := by
    intro v
    cases v with
    | none => rfl
    | some v => cases v <;> rfl
  have hspec := fieldIndex?_spec fields name
  rw [map_value_part?, hvalue, htwice, target?, fieldIndex?, hfields, Option.bind_some]
  cases hindex : Layout.fieldIndex? fields name with
  | none =>
    rw [hindex] at hspec
    rw [lookup_decodedFields_eq_none hfields hnames hspec]
    rfl
  | some i =>
    rw [hindex] at hspec
    obtain ⟨f, hf, rfl⟩ := hspec
    rw [lookup_decodedFields hfields hnames (List.mem_of_getElem? hf), Option.bind_some,
      decode_fieldSpan? hfields hf]

/-! ## Items -/

/-- An item is looked up among the items of all positions. -/
theorem getElem?_map_range (g : Nat → Value) (n i : Nat) :
    ((List.range n).map g)[i]? = if i < n then some (g i) else none := by
  rw [List.getElem?_map]
  split_ifs with hi
  · rw [List.getElem?_range hi]
    rfl
  · rw [List.getElem?_eq_none (by rw [List.length_range]; omega)]
    rfl

/-- An offset that wraps around only gets smaller, so an item of a packed array is inside. -/
theorem fits_packed {p : Primitive} {capacity i : Nat} (hi : i < slotCount p.width capacity b) :
    (⟨packedOffset p i, p.width⟩ : Span).Fits b := by
  have hslot := fits_slot hi
  have hoffset : packedOffset p i ≤ i * p.width := by
    rw [packedOffset, Nat.shiftLeft_eq, Primitive.width]
    exact Nat.mod_le _ _
  simp only [Span.Fits, Span.stop] at hslot ⊢
  omega

/-- **Items.**  A list has as many items as its window says, and the bytes of each item that is
there decode to it. -/
theorem value_list (hw : w.IsList) : ∃ items, w.value = .list items ∧ items.length = w.size
    ∧ ∀ i, ((w.layout.itemSpan? w.bytes i).bind fun target =>
      (target.2.slice? w.bytes).map (decode target.1)) = Value.nonNull items[i]? := by
  obtain ⟨layout, b⟩ := w
  cases layout with
  | array item stride capacity =>
    refine ⟨_, decode_array item stride capacity b, ?_, ?_⟩
    · rw [List.length_map, List.length_range]
      rfl
    · intro i
      rw [getElem?_map_range, itemSpan?, slotSpan?]
      split_ifs with hi
      · rw [Value.nonNull_some (decode_ne_null _ _)]
        simp only [Option.map_some, Option.bind_some, itemOffset, Span.slice?_of_fits (fits_slot hi)]
      · rfl
  | packed p capacity =>
    refine ⟨_, decode_packed p capacity b, ?_, ?_⟩
    · rw [List.length_map, List.length_range]
      rfl
    · intro i
      rw [getElem?_map_range, itemSpan?, packedSpan?]
      split_ifs with hi
      · have hread : p.read (b.drop (packedOffset p i))
            = decode (.primitive p) (Span.slice ⟨packedOffset p i, p.width⟩ b) := by
          rw [decode, Span.slice, Primitive.read_take]
        rw [hread, Value.nonNull_some (decode_ne_null _ _)]
        simp only [Option.map_some, Option.bind_some, Span.slice?_of_fits (fits_packed hi)]
      · rfl
  | vector item limit =>
    refine ⟨_, decode_vector item limit b, ?_, ?_⟩
    · rw [List.length_map, List.length_range]
      rfl
    · intro i
      rw [getElem?_map_range, itemSpan?]
      split_ifs with hi
      -- an item whose entries are unusable is a hole, and no part
      · unfold vectorItem
        cases hspan : vectorSpan? b i with
        | none => rfl
        | some span =>
          simp only [Option.map_some, Option.bind_some, Span.slice?_of_fits (vectorSpan?_fits hspan),
            Option.getD_some]
          exact (Value.nonNull_some (decode_ne_null _ _)).symm
      · rw [vectorSpan?, if_neg hi]
        rfl
  | _ => exact hw.elim

/-! ## Paths -/

/-- **One hop.**  A window reaches a part where the value has that part, which the part then decodes
to. -/
theorem value_part? (hwf : w.layout.WellFormed) (hw : w.IsPlain) {h : Hop} (hh : h.IsPlain) :
    (w.part? h).map value = Value.nonNull (w.value.part? h) := by
  -- a plain window has fields or items, and a hop to the other kind leads nowhere
  have hkind : (∃ fields, w.layout.fields? = some fields ∧ (fields.map Field.name).Nodup
        ∧ ∀ i, w.layout.itemSpan? w.bytes i = none)
      ∨ w.IsList ∧ w.layout.fields? = none := by
    obtain ⟨layout, b⟩ := w
    cases hwf with
    | object hparts harranged hfixed hnames => exact Or.inl ⟨_, rfl, hnames, fun i => rfl⟩
    | map hparts harranged hnames => exact Or.inl ⟨_, rfl, hnames, fun i => rfl⟩
    | array capacity hitem hstride => exact Or.inr ⟨hw, rfl⟩
    | packed p capacity => exact Or.inr ⟨hw, rfl⟩
    | vector limit hitem => exact Or.inr ⟨hw, rfl⟩
    | _ => exact hw.elim
  rcases hkind with ⟨fields, hfields, hnames, hitems⟩ | ⟨hlist, hfields⟩
  · have hrecord : w.value = .record (decodedFields w.layout w.bytes) := decode_record hfields _
    cases h with
    | field name => exact value_part?_field hfields hnames name
    | item i =>
      rw [map_value_part?, target?, hitems, hrecord]
      rfl
    | itemFromEnd i =>
      rw [map_value_part?, target?, hrecord]
      cases w.itemIndex? i with
      | none => rfl
      | some j => rw [Option.bind_some, hitems]; rfl
    | _ => exact hh.elim
  · obtain ⟨items, hvalue, hlength, hitems⟩ := value_list hlist
    cases h with
    | field name =>
      rw [map_value_part?, target?, fieldIndex?, hfields, hvalue]
      rfl
    | item i =>
      rw [map_value_part?, target?, hitems, hvalue]
      rfl
    | itemFromEnd i =>
      -- both sides count from the end of as many items
      have hpart : (Value.list items).part? (.itemFromEnd i) = Value.itemFromEnd? items i := rfl
      rw [map_value_part?, target?, hvalue, hpart, itemIndex?, Value.itemFromEnd?, hlength]
      split_ifs with hi hle
      · rw [Option.bind_some, hitems]
      · rw [Option.bind_some, hitems]
      · rfl
    | _ => exact hh.elim

/-- **Paths.**  A window reaches the end of a path where the value has a part there, which the
window then decodes to. -/
theorem value_follow? {path : List Hop} (hwf : w.layout.WellFormed) (hpath : w.Passes path) :
    (w.follow? path).map value = Value.nonNull (w.value.follow? path) := by
  induction path generalizing w with
  | nil => exact (Value.nonNull_some (decode_ne_null _ _)).symm
  | cons h path ih =>
    obtain ⟨hw, hh, hrest⟩ := hpath
    have hone := value_part? hwf hw hh
    rw [follow?, Value.follow?]
    cases hpart : w.part? h with
    | none =>
      rw [hpart, Option.map_none] at hone
      cases hvalue : w.value.part? h with
      | none => rfl
      | some v =>
        -- the value has a hole there, from which the path leads no further
        have hnull : v = .null := by
          by_contra hne
          rw [hvalue, Value.nonNull_some hne] at hone
          exact absurd hone (by simp)
        rw [hnull, Option.bind_none, Option.map_none, Option.bind_some, Value.follow?_null]
    | some part =>
      -- the rest of the path starts at the part, which decodes to what the value has
      rw [hpart, Option.map_some] at hone
      have hvalue := Value.eq_some_of_nonNull hone.symm
      rw [hvalue, Option.bind_some, Option.bind_some,
        ih (wellFormed_part? hwf hpart) (hrest part hpart)]

/-- **Access.**  A window to any byte string reaches the end of a path exactly where the decoded
value has something there, and then decodes to that; and a window to a list has the size of the
decoded list. -/
theorem follow?_agrees {layout : Layout} (hlayout : layout.IsCompiled) (b : Bytes) {path : List Hop}
    (hpath : Passes ⟨layout, b⟩ path) :
    (follow? ⟨layout, b⟩ path).map value = Value.nonNull ((layout.decode b).follow? path)
      ∧ ∀ w, follow? ⟨layout, b⟩ path = some w → w.IsList →
        ∃ items, w.value = .list items ∧ w.size = items.length := by
  refine ⟨value_follow? hlayout.wellFormed hpath, ?_⟩
  intro w _ hlist
  obtain ⟨items, hvalue, hlength, -⟩ := value_list hlist
  exact ⟨items, hvalue, hlength.symm⟩

/-- The last of two texts in an optional field, read from a byte string with more behind it. -/
theorem follow?_agrees_lastText :
    let layout : Layout := .map [⟨"texts", .vector (.text none) none, .optional 0, none, none⟩]
    let b : Bytes := [27, 0, 0, 0, 27, 0, 0, 0, 2, 0, 0, 0, 16, 0, 0, 0, 18, 0, 0, 0, 19, 0, 0, 0,
      97, 98, 99, 255]
    (follow? ⟨layout, b⟩ [.field "texts", .itemFromEnd (-1)]).map value = some (.text "c") := by
  intro layout b
  have hcompiled : layout.IsCompiled := .of_eval ⟨0⟩ (.object
    [("type", .text "object"), ("btype", .text "map"), ("properties", .object [("texts", .object
      [("type", .text "array"), ("btype", .text "vector"),
        ("items", .object [("type", .text "string")])])])]) (by cbv)
  have hpart : part? ⟨layout, b⟩ (.field "texts") = some ⟨.vector (.text none) none,
      [2, 0, 0, 0, 16, 0, 0, 0, 18, 0, 0, 0, 19, 0, 0, 0, 97, 98, 99]⟩ := rfl
  have hpath : Passes ⟨layout, b⟩ [.field "texts", .itemFromEnd (-1)] := by
    refine ⟨True.intro, True.intro, ?_⟩
    rw [hpart]
    rintro part ⟨⟩
    exact ⟨True.intro, True.intro, fun _ _ => True.intro⟩
  have hvalue : layout.decode b = .record [("texts", .list [.text "ab", .text "c"])] := rfl
  rw [(follow?_agrees hcompiled b hpath).1, hvalue]
  rfl

end Window

end BinarySchema
