/-
# Leaves make up the whole

A layout of one size has no gaps: the slots of an array and the places of an object lie one behind
the other from the first byte to the last (`WellFormed.ext_parts`), and so do the leaves at the ends
of all paths.  Two byte strings of that size are therefore the same as soon as they are the same
under each leaf (`WellFormed.toldByLeaves`), and the encoding of a value is known once it is known
what the value gives for each leaf (`WellFormed.slice_supply_leaf`).

What bytes decode to gives something for each leaf: what the bytes of the leaf decode to
(`WellFormed.follow?_decode`).
-/
import BinarySchema.Proofs.Amending
import BinarySchema.Proofs.Regular

namespace BinarySchema

namespace Layout

variable {layout part leaf : Layout} {fields : List (Field Layout)} {v : Value} {b x y : Bytes}
  {h : Hop} {path : List Hop} {span : Span} {n : Nat}

/-! ## Parts one behind the other -/

/-- Byte strings that are runs of slots are the same if all slots are. -/
theorem ext_slots {stride count : Nat} (hx : x.length = count * stride)
    (hy : y.length = count * stride)
    (hslots : ∀ i < count, Span.slice ⟨i * stride, stride⟩ x = Span.slice ⟨i * stride, stride⟩ y) :
    x = y := by
  have hfront : ∀ k ≤ count, x.take (k * stride) = y.take (k * stride) := by
    intro k hk
    induction k with
    | zero => rw [Nat.zero_mul, List.take_zero, List.take_zero]
    | succ k ih =>
      have hslot := hslots k hk
      rw [Span.slice, Span.slice] at hslot
      rw [Nat.succ_mul, List.take_add, List.take_add, ih (by omega), hslot]
  have hall := hfront count (le_refl _)
  rwa [← hx, List.take_length, hx, ← hy, List.take_length] at hall

/-- Where all fields have fixed places, byte strings that end with the last place are the same, from
the first place on, if all places are. -/
theorem Arranged.drop_eq {start ordinal : Nat} (harranged : Arranged start ordinal fields)
    (hfixed : ∀ f ∈ fields, f.ordinal? = none)
    (hx : x.length = start + ((fixedSpans fields).map Span.length).sum)
    (hy : y.length = start + ((fixedSpans fields).map Span.length).sum)
    (hplaces : ∀ f ∈ fields, ∀ span, f.place = .fixed span → span.slice x = span.slice y) :
    x.drop start = y.drop start := by
  induction fields generalizing start with
  | nil =>
    have hend : ∀ z : Bytes, z.length = start + 0 → z.drop start = [] :=
      fun z hz => List.drop_of_length_le (le_of_eq hz)
    rw [hend x hx, hend y hy]
  | cons f rest ih =>
    obtain ⟨span, hplace⟩ := Window.exists_fixed_of_ordinal? (hfixed f List.mem_cons_self)
    rw [Arranged.cons_fixed hplace] at harranged
    obtain ⟨hstart, -, hrest⟩ := harranged
    have hspans : fixedSpans (f :: rest) = span :: fixedSpans rest :=
      List.filterMap_cons_some (by rw [Field.span?, hplace])
    rw [hspans, List.map_cons, List.sum_cons, ← Nat.add_assoc, ← hstart] at hx hy
    have htail := ih hrest (fun g hg => hfixed g (List.mem_cons_of_mem _ hg)) hx hy
      fun g hg => hplaces g (List.mem_cons_of_mem _ hg)
    have hself := hplaces f List.mem_cons_self span hplace
    rw [← hstart, ← List.take_append_drop span.length (x.drop span.start),
      ← List.take_append_drop span.length (y.drop span.start), List.drop_drop, List.drop_drop]
    exact congrArg₂ (· ++ ·) hself htail

/-- **Parts.**  The parts of an object or an array make up the whole. -/
theorem WellFormed.ext_parts (hwf : layout.WellFormed) (hkind : ¬ layout.IsLeaf)
    (hlayout : layout.fixedLength? = some n) (hx : x.length = n) (hy : y.length = n)
    (hparts : ∀ h part span, layout.placedPart? h = some (part, span) →
      span.slice x = span.slice y) : x = y := by
  cases hwf with
  | @array item stride capacity hitem hstride =>
    obtain rfl : capacity * stride = n := Option.some.inj hlayout
    exact ext_slots hx hy fun i hi => hparts (.item i) item _ (if_pos hi)
  | @object fields hwfParts harranged hfixed hnames =>
    obtain rfl : fixedRegion fields = n := Option.some.inj hlayout
    rw [harranged.fixedRegion_eq, ← Nat.zero_add (List.sum _)] at hx hy
    have hall := harranged.drop_eq hfixed hx hy fun f hf span hplace =>
      hparts (.field f.name) f.layout span (placedPart?_field hnames hf hplace)
    rwa [List.drop_zero, List.drop_zero] at hall
  | primitive | text | blob | packed => exact absurd True.intro hkind
  | _ => cases hlayout

/-- What a part leads to lies behind the hop to that part. -/
theorem placed?_of_placedPart? {outer : Span} (hpart : layout.placedPart? h = some (part, outer))
    (hpath : part.placed? path = some (leaf, span)) :
    layout.placed? (h :: path) = some (leaf, ⟨outer.start + span.start, span.length⟩) := by
  rw [placed?, hpart, Option.bind_some]
  dsimp only
  rw [hpath]
  rfl

/-- Two byte strings of the size of the layout are the same if they are so under each leaf. -/
def ToldByLeaves (layout : Layout) : Prop :=
  ∀ x y : Bytes, layout.fixedLength? = some x.length → y.length = x.length →
    (∀ path leaf span, layout.placed? path = some (leaf, span) → leaf.IsLeaf →
      span.slice x = span.slice y) → x = y

theorem toldByLeaves_leaf (hleaf : layout.IsLeaf) : layout.ToldByLeaves := by
  intro x y hlayout hlength hleaves
  have hself : layout.placed? [] = some (layout, ⟨0, x.length⟩) := by
    rw [placed?, hlayout]
    rfl
  have hwhole := hleaves [] layout _ hself hleaf
  rwa [slice_whole rfl, slice_whole hlength] at hwhole

theorem toldByLeaves_parts (hwf : layout.WellFormed) (hkind : ¬ layout.IsLeaf)
    (hparts : ∀ h part span, layout.placedPart? h = some (part, span) → part.ToldByLeaves) :
    layout.ToldByLeaves := by
  intro x y hlayout hlength hleaves
  refine hwf.ext_parts hkind hlayout rfl hlength fun h part outer hpart => ?_
  obtain ⟨hwfPart, hpartLength, hinside⟩ := hwf.placedPart? hlayout hpart
  have hx : (outer.slice x).length = outer.length := Span.length_slice_of_fits hinside
  have hy : (outer.slice y).length = outer.length :=
    Span.length_slice_of_fits (hinside.trans_eq hlength.symm)
  refine hparts h part outer hpart _ _ (by rw [hx]; exact hpartLength) (hy.trans hx.symm) ?_
  intro path leaf inner hinner hleaf
  obtain ⟨-, -, hinner'⟩ := hwfPart.placed? hpartLength hinner
  rw [Span.slice_slice hinner', Span.slice_slice hinner']
  exact hleaves (h :: path) leaf _ (placed?_of_placedPart? hpart hinner) hleaf

/-- **Leaves.**  The leaves at the ends of all paths make up the whole. -/
theorem WellFormed.toldByLeaves (hwf : layout.WellFormed) : layout.ToldByLeaves := by
  induction hwf with
  | primitive | text | blob | packed => exact toldByLeaves_leaf True.intro
  | array capacity hitem hstride ih =>
    refine toldByLeaves_parts (hitem.array capacity hstride) id fun h part span hpart => ?_
    obtain ⟨i, -, -, rfl, -⟩ := placedPart?_array hpart
    exact ih
  | object hparts harranged hfixed hnames ih =>
    refine toldByLeaves_parts (.object hparts harranged hfixed hnames) id
      fun h part span hpart => ?_
    obtain ⟨f, hf, -, rfl, -⟩ := placedPart?_object hpart
    exact ih f hf
  | _ =>
    intro x y hlayout
    cases hlayout

/-! ## What is read of leaves -/

/-- What bytes decode to has each part, which is what the bytes of that part decode to. -/
theorem WellFormed.part?_decode (hwf : layout.WellFormed)
    (hlayout : layout.fixedLength? = some b.length)
    (hpart : layout.placedPart? h = some (part, span)) :
    (decode layout b).part? h = some (decode part (span.slice b)) := by
  have hplain : (⟨layout, b⟩ : Window).IsPlain ∧ h.IsPlain := by
    cases layout with
    | object fields =>
      obtain ⟨f, -, rfl, -⟩ := placedPart?_object hpart
      exact ⟨True.intro, True.intro⟩
    | array item stride capacity =>
      obtain ⟨i, -, rfl, -⟩ := placedPart?_array hpart
      exact ⟨True.intro, True.intro⟩
    | _ => cases h <;> cases hpart
  have hvalue := Window.value_part? (w := ⟨layout, b⟩) hwf hplain.1 hplain.2
  rw [part?_of_placedPart? hwf hlayout hpart, Option.map_some] at hvalue
  exact Value.eq_some_of_nonNull hvalue.symm

/-- The same at the end of each path. -/
theorem WellFormed.follow?_decode (hwf : layout.WellFormed)
    (hlayout : layout.fixedLength? = some b.length)
    (hpath : layout.placed? path = some (leaf, span)) :
    (decode layout b).follow? path = some (decode leaf (span.slice b)) := by
  induction path generalizing layout b leaf span with
  | nil =>
    rw [Layout.placed?, hlayout, Option.map_some] at hpath
    cases hpath
    rw [Value.follow?, slice_whole rfl]
  | cons h path ih =>
    obtain ⟨part, outer, inner, hpart, hwf', hlength, hinner, hslice⟩ :=
      hwf.placed?_cons hlayout hpath
    rw [Value.follow?, hwf.part?_decode hlayout hpart, Option.bind_some, ih hwf' hlength hinner,
      hslice]

/-! ## Encoding over the defaults -/

/-- Encoding a value by itself supplies the defaults with it. -/
theorem WellFormed.toBytes_eq_supply (hwf : layout.WellFormed)
    (hlayout : layout.fixedLength? = some n) (hv : v ≠ .null) :
    toBytes layout v = supply layout (some v) (seed layout (zeros n)) := by
  rw [hwf.toBytes_of_fixedLength hlayout, supply_some (Value.nonNull_some hv), encodeOver]

theorem WellFormed.length_toBytes_eq (hwf : layout.WellFormed)
    (hlayout : layout.fixedLength? = some n) (v : Value) : (toBytes layout v).length = n := by
  rw [hwf.toBytes_of_fixedLength hlayout, (hwf.keepsLength.encodeOver v _).1, length_zeros]

end Layout

end BinarySchema
