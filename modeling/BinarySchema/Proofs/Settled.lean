/-
# Settled slots

In a slot of fixed size that holds arbitrary bytes, a text may read as one that takes more room than
there is, and so reads differently once it is stored again.  A slot is `Settled` if each text in it
has been put there as such, cut off or filled up with zeros as the size of its place asks.

What is read from a settled slot is read back from every slot of the size (`Settled.readsIn`).  Zeros
are settled (`WellFormed.settled_zeros`), the defaults of a layout are (`WellFormed.settled_seed`),
and a legible value that is written to a settled slot keeps it so (`Settled.write`), whatever parts
of the slot the value supplies.
-/
import BinarySchema.Proofs.CutText
import BinarySchema.Proofs.Legible
import BinarySchema.Proofs.Overwrite
import BinarySchema.Proofs.RoundTrip
import BinarySchema.Proofs.Template

namespace BinarySchema

namespace Layout

variable {layout : Layout} {v : Value} {b content : Bytes} {cap : Option Nat} {n : Nat}
  {u : Unsupplied} {fields : List (Field Layout)}

/-! ## Slots of one size -/

/-- Where all values have one size, a value stands in a slot of that size. -/
theorem readsBack_fixed_iff (hlayout : layout.fixedLength? = some n) :
    ReadsBack .fixed layout v ↔ ReadsIn n layout v := by
  rw [ReadsBack, slotLength, freshLength, hlayout, Option.getD_some, ReadsIn]

/-! ## Contents in slots -/

theorem contentText_fitted (s : String) (n : Nat) :
    contentText (fitted (Text.utf8 s) n) = Text.cut (Text.beforeNul s) n := by
  rw [fitted, contentText_take_utf8]

/-- What a slot of a text reads as is read again from such a slot. -/
theorem contentText_fitted_again (s : String) (n : Nat) :
    contentText (fitted (Text.utf8 (contentText (fitted (Text.utf8 s) n))) n)
      = contentText (fitted (Text.utf8 s) n) := by
  rw [contentText_fitted s, fitted, contentText_cut]

/-- What is read of a text in a slot is read back from it. -/
theorem readsIn_text (s : String)
    (h : n ≤ cap.getD (Text.utf8 (Text.cut (Text.beforeNul s) n)).length) :
    ReadsIn n (.text cap) (.text (contentText (fitted (Text.utf8 s) n))) := by
  intro u b hb
  have hcontent : ∀ t, Value.bytes (.text t) = Text.utf8 t := fun t => rfl
  rw [write, hcontent, writeContent_eq (by rw [contentText_fitted, hb]; exact h), decode, hb,
    contentText_fitted_again]
  exact ⟨rfl, rfl⟩

/-! ## Floating-point numbers -/

/-- Neither the layout nor any nested in it is that of a floating-point number. -/
def FloatFree (layout : Layout) : Prop :=
  ∀ p, (Within (.primitive p) layout ∨ ∃ capacity, Within (.packed p capacity) layout) →
    p ≠ .float32 ∧ p ≠ .float64

theorem FloatFree.within (h : layout.FloatFree) {part : Layout} (hpart : Within part layout) :
    part.FloatFree :=
  fun p hp => h p (hp.imp (·.trans hpart) fun ⟨capacity, hpacked⟩ => ⟨capacity, hpacked.trans hpart⟩)

theorem FloatFree.hasKeys {p : Primitive} (h : (Layout.primitive p).FloatFree) :
    p.hasKeys = true := by
  obtain ⟨h32, h64⟩ := h p (Or.inl (.self _))
  rw [Primitive.hasKeys, bne_iff_ne.mpr h32, bne_iff_ne.mpr h64]
  rfl

theorem FloatFree.hasKeys_packed {p : Primitive} {capacity : Nat}
    (h : (Layout.packed p capacity).FloatFree) : p.hasKeys = true :=
  FloatFree.hasKeys fun q hq => by
    rcases hq with hq | ⟨_, hq⟩
    · cases hq
      exact h p (Or.inr ⟨capacity, .self _⟩)
    · cases hq

/-! ## Settled slots -/

/-- Each text in the slot has been put there as a text. -/
inductive Settled : Layout → Bytes → Prop
  | primitive {p : Primitive} {b : Bytes} : Settled (.primitive p) b
  | text {cap : Option Nat} {b : Bytes} (s : String) (hb : b = fitted (Text.utf8 s) b.length) :
      Settled (.text cap) b
  | blob {cap : Option Nat} {b : Bytes} : Settled (.blob cap) b
  | array {item : Layout} {stride capacity : Nat} {b : Bytes}
      (hitems : ∀ i < capacity, Settled item (Span.slice ⟨i * stride, stride⟩ b)) :
      Settled (.array item stride capacity) b
  | packed {p : Primitive} {capacity : Nat} {b : Bytes} : Settled (.packed p capacity) b
  | object {fields : List (Field Layout)} {b : Bytes}
      (hparts : ∀ f ∈ fields, ∀ span, f.place = .fixed span → Settled f.layout (span.slice b)) :
      Settled (.object fields) b

/-- The fixed places of a record are settled. -/
def SettledPlaces (fields : List (Field Layout)) (b : Bytes) : Prop :=
  ∀ f ∈ fields, ∀ span, f.place = .fixed span → Settled f.layout (span.slice b)

/-! ## Reading -/

theorem readsIn_array {item : Layout} {stride capacity : Nat} (hkeep : item.KeepsLength)
    (hstride : item.fixedLength? = some stride) (hb : capacity * stride = b.length)
    (hitems : ∀ i < capacity, ReadsIn stride item (decode item (Span.slice ⟨i * stride, stride⟩ b))) :
    ReadsIn b.length (.array item stride capacity) (decode (.array item stride capacity) b) := by
  rw [← readsBack_fixed_iff (by rw [fixedLength?, hb]), decode_array,
    slotCount_eq_capacity (le_of_eq hb)]
  refine readsBack_array hkeep hstride (by rw [List.length_map, List.length_range]) ?_ ?_
  · intro x hx
    obtain ⟨i, -, rfl⟩ := List.mem_map.mp hx
    exact decode_ne_null _ _
  · intro x hx
    obtain ⟨i, hi, rfl⟩ := List.mem_map.mp hx
    rw [readsBack_fixed_iff hstride]
    exact hitems i (List.mem_range.mp hi)

theorem readsIn_packed {p : Primitive} {capacity : Nat} (hp : p.hasKeys = true)
    (hb : packedLength p capacity = b.length) :
    ReadsIn b.length (.packed p capacity) (decode (.packed p capacity) b) := by
  obtain ⟨hcount, hsize⟩ := slotCount_packed hb
  rw [← readsBack_fixed_iff (by rw [fixedLength?, hb]), decode_packed]
  refine readsBack_packed ?_ ?_ ?_
  · rwa [List.length_map, List.length_range]
  · rwa [List.length_map, List.length_range]
  · intro x hx
    obtain ⟨i, -, rfl⟩ := List.mem_map.mp hx
    exact Primitive.holds_read hp _

theorem readsIn_object (hwf : (Layout.object fields).WellFormed) (hb : fixedRegion fields = b.length)
    (hparts : ∀ f ∈ fields, ∀ span, f.place = .fixed span →
      ReadsIn span.length f.layout (decode f.layout (span.slice b))) :
    ReadsIn b.length (.object fields) (decode (.object fields) b) := by
  cases hwf with
  | object hwfParts harranged hfixed hnames =>
    have hvalue : ∀ f ∈ fields, ∃ span, f.place = .fixed span
        ∧ (decodedFields (.object fields) b).lookup f.name
          = some (decode f.layout (span.slice b)) := by
      intro f hf
      cases hplace : f.place with
      | optional k =>
        have hnone := hfixed f hf
        rw [Field.ordinal?, hplace] at hnone
        cases hnone
      | fixed span =>
        have hfits : span.Fits b := by
          rw [Span.Fits, ← hb]
          exact stop_le_fixedRegion hf hplace
        exact ⟨span, rfl, by
          rw [lookup_decodedFields rfl hnames hf, fieldValue?, fixedValue?_of_fits hplace hfits]⟩
    rw [← readsBack_fixed_iff (by rw [fixedLength?, hb]), decode_record rfl]
    refine readsBack_object harranged hfixed hnames (fun f hf => (hwfParts f hf).keepsLength)
      (ordered_decodedFields _ b) ?_ ?_ ?_
    · intro name
      constructor
      · exact mem_names_of_mem_decodedFields rfl hnames
      · intro hname
        obtain ⟨f, hf, rfl⟩ := List.mem_map.mp hname
        obtain ⟨span, -, hlookup⟩ := hvalue f hf
        exact List.mem_map_of_mem (Value.mem_of_lookup hlookup)
    · intro f hf x hx
      obtain ⟨span, -, hlookup⟩ := hvalue f hf
      rw [← Option.some.inj (hlookup.symm.trans hx)]
      exact decode_ne_null _ _
    · intro f hf x hx
      obtain ⟨span, hplace, hlookup⟩ := hvalue f hf
      rw [← Option.some.inj (hlookup.symm.trans hx),
        readsBack_fixed_iff (harranged.length_eq hf hplace)]
      exact hparts f hf span hplace

/-- **Settled slots.**  What is read from a settled slot is read back from every slot of its size. -/
theorem Settled.readsIn (h : Settled layout b) (hwf : layout.WellFormed)
    (hb : layout.fixedLength? = some b.length) (hfloats : layout.FloatFree) :
    ReadsIn b.length layout (decode layout b) := by
  induction hwf generalizing b with
  | primitive p =>
    rw [← readsBack_fixed_iff hb, decode]
    exact readsBack_primitive (Primitive.holds_read hfloats.hasKeys b)
  | text cap =>
    cases h with
    | text s hs =>
      rw [decode, hs, length_fitted]
      refine readsIn_text s ?_
      rw [show cap = some b.length from hb, Option.getD_some]
  | blob cap =>
    have hcontent : contentBytes cap b = b := by
      rw [contentBytes, show cap = some b.length from hb, Option.getD_some, List.take_length]
    rw [decode, hcontent]
    exact readsIn_blob (WithinCap.of_eq fun m hm => Option.some.inj (hb.symm.trans hm))
  | array capacity hitem hstride ih =>
    cases h with
    | array hitems =>
      have hlength := Option.some.inj hb
      refine readsIn_array hitem.keepsLength hstride hlength fun i hi => ?_
      have hslot := Span.length_slice_of_fits (fits_slot (i := i) (by
        rw [slotCount_eq_capacity (le_of_eq hlength)]
        exact hi))
      have hread := ih (hitems i hi) (by rw [hslot]; exact hstride)
        (hfloats.within (.array (.self _)))
      rwa [hslot] at hread
  | packed p capacity => exact readsIn_packed hfloats.hasKeys_packed (Option.some.inj hb)
  | @object fields hparts harranged hfixed hnames ih =>
    cases h with
    | object hplaces =>
      have hlength := Option.some.inj hb
      refine readsIn_object (.object hparts harranged hfixed hnames) hlength ?_
      intro f hf span hplace
      have hslot : (span.slice b).length = span.length := by
        apply Span.length_slice_of_fits
        rw [Span.Fits, ← hlength]
        exact stop_le_fixedRegion hf hplace
      have hread := ih f hf (hplaces f hf span hplace)
        (by rw [hslot]; exact harranged.length_eq hf hplace)
        (hfloats.within (.object hf (.self _)))
      rwa [hslot] at hread
  | _ => cases hb

/-! ## Writing -/

/-- Zeros are settled: they are the empty text in each place of a text. -/
theorem WellFormed.settled_zeros (hwf : layout.WellFormed) {k : Nat}
    (hlayout : layout.fixedLength? = some k) (n : Nat) : Settled layout (zeros n) := by
  induction hwf generalizing k n with
  | primitive p => exact .primitive
  | text cap => exact .text "" (by rw [length_zeros]; exact (fitted_nil n).symm)
  | blob cap => exact .blob
  | array capacity hitem hstride ih =>
    refine .array fun i _ => ?_
    obtain ⟨m, hm⟩ := exists_slice_zeros ⟨i * _, _⟩ n
    rw [hm]
    exact ih hstride m
  | packed p capacity => exact .packed
  | object hparts harranged hfixed hnames ih =>
    refine .object fun f hf span hplace => ?_
    obtain ⟨m, hm⟩ := exists_slice_zeros span n
    rw [hm]
    exact ih f hf (harranged.length_eq hf hplace) m
  | _ => cases hlayout

/-- A part of a region that has been prepared is prepared already. -/
theorem prepare_slice_prepare (u : Unsupplied) (s : Span) (b : Bytes) :
    u.prepare (s.slice (u.prepare b)) = s.slice (u.prepare b) := by
  cases u with
  | kept => rfl
  | cleared =>
    obtain ⟨k, hk⟩ := exists_slice_zeros s b.length
    rw [Unsupplied.prepare, Unsupplied.prepare, hk, length_zeros]

/-- Writing a record to settled places keeps them settled, if what is written to each does. -/
theorem SettledPlaces.writeFixed (h : SettledPlaces fields b) (harranged : Arranged 0 0 fields)
    (hkeep : ∀ f ∈ fields, f.layout.KeepsLength) (hb : AllFit fields b)
    (hwrite : ∀ f ∈ fields, ∀ span, f.place = .fixed span → ∀ x, v.get? f.name = some x →
      Settled f.layout (write .kept f.layout x (span.slice b)).bytes) :
    SettledPlaces fields (writeFixed fields v b) := by
  intro f hf span hplace
  rw [writeFixed_eq, slice_modifyPlaces harranged (fun g hg => length_supplySlot (hkeep g hg) v) hb
    hf hplace, supplySlot]
  cases hx : v.get? f.name with
  | none => exact h f hf span hplace
  | some x => exact hwrite f hf span hplace x hx

/-- **Writing.**  A legible value that is written to a settled slot keeps it settled, and so it does
where the slot is cleared first. -/
theorem Settled.write (h : Settled layout (u.prepare b)) (hwf : layout.WellFormed)
    (hb : layout.fixedLength? = some b.length) {p : String → Prop} (hv : Legible p layout v) :
    Settled layout (write u layout v b).bytes := by
  induction hwf generalizing u v b with
  | primitive p => exact .primitive
  | text cap =>
    have hcap : cap = some b.length := hb
    obtain ⟨s, hs, -⟩ := (hv.mono fun _ _ => True.intro).exists_utf8 True.intro
    refine .text s ?_
    rw [Layout.write, hs, writeContent_eq (by rw [hcap, Option.getD_some])]
    dsimp only
    rw [length_fitted]
  | blob cap => exact .blob
  | @array item stride capacity hitem hstride ih =>
    cases h with
    | array hslots =>
      cases hv with
      | array hitems =>
        have hlength : capacity * stride = b.length := Option.some.inj hb
        rw [write_array u v hlength]
        refine .array fun i hi => ?_
        have hsize : ∀ f ∈ (v.items.take capacity).map (supplyItem u item), ∀ x : Bytes,
            x.length = stride → (f x).length = stride := by
          intro f hf x hx
          obtain ⟨i, -, rfl⟩ := List.mem_map.mp hf
          rw [length_supplyItem hitem.keepsLength, hx]
        have hroom : ((v.items.take capacity).map (supplyItem u item)).length * stride
            ≤ (u.prepare b).length := by
          rw [length_prepare, ← hlength, List.length_map]
          exact Nat.mul_le_mul_right _ (List.length_take_le _ _)
        rcases Nat.lt_or_ge i ((v.items.take capacity).map (supplyItem u item)).length with hlt | hge
        · -- an item that is no hole is written to its slot
          have hcount : i < slotCount stride capacity (u.prepare b) := by
            rwa [slotCount_eq_capacity (by rw [length_prepare, hlength])]
          have hslot := Span.length_slice_of_fits (fits_slot hcount)
          dsimp only at hslot
          dsimp only
          rw [slice_onSlots hsize hroom hlt, List.getElem_map, supplyItem]
          split_ifs
          · exact hslots i hi
          · refine ih ?_ (by rw [hslot]; exact hstride)
              (hitems _ (List.getElem_mem _))
            rw [prepare_slice_prepare]
            exact hslots i hi
        · dsimp only
          rw [slice_onSlots_of_le hsize hroom hge]
          exact hslots i hi
  | packed p capacity => exact .packed
  | @object fields hparts harranged hfixed hnames ih =>
    cases h with
    | object hplaces =>
      have hlength : fixedRegion fields = b.length := Option.some.inj hb
      have hfit : AllFit fields (u.prepare b) := allFit_of_length (by rw [length_prepare, hlength])
      rw [write_object u v hlength]
      refine .object (SettledPlaces.writeFixed hplaces harranged
        (fun f hf => (hparts f hf).keepsLength) hfit ?_)
      intro f hf span hplace x hx
      refine ih f hf (hplaces f hf span hplace) ?_ (hv.field rfl hf hx)
      rw [Span.length_slice_of_fits (hfit f hf span hplace)]
      exact harranged.length_eq hf hplace
  | _ => cases hb

/-! ## Defaults -/

/-- The defaults of a record are settled, if the seeds of its fields are. -/
theorem settledPlaces_template (harranged : Arranged 0 0 fields)
    (hparts : ∀ f ∈ fields, f.layout.WellFormed) (hread : ∀ f ∈ fields, DefaultRead f)
    (hseed : ∀ f ∈ fields, ∀ slot : Bytes, f.layout.fixedLength? = some slot.length →
      Settled f.layout (seed f.layout slot)) : SettledPlaces fields (template fields) := by
  intro f hf span hplace
  have hlength := harranged.length_eq hf hplace
  have hfit : AllFit fields (zeros (fixedRegion fields)) :=
    allFit_of_length (by rw [length_zeros])
  have hslot := Span.length_slice_of_fits (hfit f hf span hplace)
  have hself := hseed f hf (span.slice (zeros (fixedRegion fields))) (by rw [hslot]; exact hlength)
  rw [template, slice_writeDefaults harranged (fun g hg => (hparts g hg).keepsLength) hfit hf hplace,
    defaultSlot]
  cases hdefault : f.default with
  | none => exact hself
  | some x =>
    -- a default has been read from a document, so it is legible
    obtain ⟨j, rfl⟩ := hread f hf x hdefault
    refine Settled.write (u := .kept) hself (hparts f hf) ?_ ((hparts f hf).legible_ofJson j)
    rw [(hparts f hf).keepsLength.2, hslot]
    exact hlength

/-- **Defaults.**  The seed of a layout of fixed size is settled. -/
theorem WellFormed.settled_seed (hwf : layout.WellFormed)
    (hread : ∀ part, Within part layout → part.DefaultsRead)
    (hb : layout.fixedLength? = some b.length) : Settled layout (seed layout b) := by
  induction hwf generalizing b with
  | primitive p => exact .primitive
  | text cap =>
    have hzeros : seed (.text cap) b = zeros b.length := by
      rw [seed_eq_onFront rfl (by simp), hb, Option.getD_some, onFront, List.take_length,
        List.drop_length, List.append_nil]
    rw [hzeros]
    exact (WellFormed.text cap).settled_zeros hb _
  | blob cap => exact .blob
  | @array item stride capacity hitem hstride ih =>
    have hlength : capacity * stride = b.length := Option.some.inj hb
    refine .array fun i hi => ?_
    have hslot : (Span.slice ⟨i * stride, stride⟩ b).length = stride :=
      Span.length_slice_of_fits (fits_slot (by rwa [slotCount_eq_capacity (le_of_eq hlength)]))
    rw [slice_seed_array hitem.keepsLength hlength hi]
    exact ih (fun part hpart => hread part (.array hpart)) (by rw [hslot]; exact hstride)
  | packed p capacity => exact .packed
  | @object fields hparts harranged hfixed hnames ih =>
    have hlength : fixedRegion fields = b.length := Option.some.inj hb
    have htemplate := length_template fun f hf => (hparts f hf).keepsLength
    have hseed : seed (.object fields) b = template fields := by
      rw [seed, ← template, overlay_of_le (by omega), List.drop_of_length_le (by omega),
        List.append_nil]
    rw [hseed]
    exact .object (settledPlaces_template harranged hparts
      (fun f hf => hread _ (.self _) fields rfl f hf)
      fun f hf slot hslot => ih f hf (fun part hpart => hread part (.object hf hpart)) hslot)
  | _ => cases hb

/-- **Fixed slots.**  What is read of a legible value in a slot of fixed size is read back from every
such slot. -/
theorem WellFormed.readsIn_encodeOver (hwf : layout.WellFormed)
    (hread : ∀ part, Within part layout → part.DefaultsRead) (hfloats : layout.FloatFree)
    {p : String → Prop} (hv : Legible p layout v) (hb : layout.fixedLength? = some b.length) :
    ReadsIn b.length layout (decode layout (encodeOver layout v b).bytes) := by
  have hsettled : Settled layout (encodeOver layout v b).bytes := by
    refine Settled.write (u := .kept) (hwf.settled_seed hread hb) hwf ?_ hv
    rw [hwf.keepsLength.2]
    exact hb
  have hlength := (hwf.keepsLength.encodeOver v b).1
  have hback := hsettled.readsIn hwf (by rw [hlength]; exact hb) hfloats
  rwa [hlength] at hback

end Layout

end BinarySchema
