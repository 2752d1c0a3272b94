/-
# The layouts of a catalog are regular

Whatever is submitted to a catalog, every layout in it is laid out as some schema of what was
submitted asks, and so are the layouts nested in it (`Catalog.gives_regular`).  `Layout.LaidOut` says
what that means for the sizes and the order of the fields; `Layout.Regular` adds what follows for the
layout by itself: the sums of its sizes, the names of its fields, and that nothing without a bound
stands in a fixed place.
-/
import BinarySchema.Proofs.Access
import BinarySchema.Proofs.Submission

namespace BinarySchema

/-! ## Schemas in schemas -/

namespace Schema

/-- The schemas that occur in a schema, itself included. -/
inductive Inside : Schema → Schema → Prop
  | self (s : Schema) : Inside s s
  | child {node child s : Schema} (hchild : child ∈ s.children) (h : Inside node child) :
      Inside node s

variable {node s : Schema}

/-- The children of a schema are in what it is in. -/
theorem Inside.of_child (h : Inside node s) {child : Schema} (hchild : child ∈ node.children) :
    Inside child s := by
  induction h with
  | self => exact .child hchild (.self child)
  | child hmem h ih => exact .child hmem ih

theorem Inside.distinct (h : Inside node s) (hs : s.Distinct) : node.Distinct := by
  induction h with
  | self => exact hs
  | child hmem h ih => exact ih (hs.children _ hmem)

end Schema

namespace Layout

/-! ## Sizes -/

/-- The number of bytes of the values of the layout has a bound that the layout names. -/
def IsBounded : Layout → Prop
  | .text none | .blob none | .vector _ _ | .dict _ _ _ | .map _ => False
  | _ => True

/-- The layouts that stand in places of a fixed size. -/
def slots : Layout → List Layout
  | .array item _ _ => [item]
  | .packed p _ => [.primitive p]
  | .dict key _ _ => [key]
  | .object fields | .map fields => (fields.filter fun f => f.span?.isSome).map Field.layout
  | .primitive _ | .text _ | .blob _ | .vector _ _ => []

variable {layout : Layout} {fields : List (Field Layout)} {f : Field Layout} {start ordinal : Nat}

theorem isBounded_of_fixedLength? {n : Nat} (h : layout.fixedLength? = some n) :
    layout.IsBounded := by
  unfold IsBounded
  split
  any_goals cases h
  exact True.intro

theorem Arranged.isBounded (h : Arranged start ordinal fields) {slot : Layout}
    (hslot : slot ∈ (fields.filter fun f => f.span?.isSome).map Field.layout) :
    slot.IsBounded := by
  obtain ⟨f, hf, rfl⟩ := List.mem_map.mp hslot
  obtain ⟨hf, hspan⟩ := List.mem_filter.mp hf
  cases hplace : f.place with
  | fixed span => exact isBounded_of_fixedLength? (h.length_eq hf hplace)
  | optional k =>
    rw [Field.span?, hplace] at hspan
    cases hspan

/-- The last fixed place ends where the sizes of all of them add up to. -/
theorem Arranged.foldl_stop (h : Arranged start ordinal fields) :
    (fixedSpans fields).foldl (fun n span => max n span.stop) start
      = start + ((fixedSpans fields).map Span.length).sum := by
  induction fields generalizing start ordinal with
  | nil => rfl
  | cons f rest ih =>
    cases hf : f.place with
    | fixed span =>
      rw [Arranged.cons_fixed hf] at h
      have hstop : max start span.stop = span.stop := by
        rw [← h.1, Span.stop]
        omega
      rw [fixedSpans, List.filterMap_cons_some (by rw [Field.span?, hf]), ← fixedSpans,
        List.foldl_cons, hstop, ih h.2.2, List.map_cons, List.sum_cons, ← Nat.add_assoc, ← h.1,
        Span.stop]
    | optional k =>
      rw [Arranged.cons_optional hf] at h
      rw [fixedSpans, List.filterMap_cons_none (by rw [Field.span?, hf]), ← fixedSpans]
      exact ih h.2

theorem Arranged.fixedRegion_eq (h : Arranged 0 ordinal fields) :
    fixedRegion fields = ((fixedSpans fields).map Span.length).sum := by
  rw [fixedRegion, h.foldl_stop, Nat.zero_add]

/-! ## Names -/

/-- Where names are distinct, the name of a field leads to its position. -/
theorem fieldIndex?_of_nodup (h : (fields.map Field.name).Nodup) {i : Nat}
    (hf : fields[i]? = some f) : fieldIndex? fields f.name = some i := by
  have hname : (fields.map Field.name)[i]? = some f.name := by
    rw [List.getElem?_map, hf, Option.map_some]
  have hspec := Window.fieldIndex?_spec fields f.name
  cases hindex : fieldIndex? fields f.name with
  | none =>
    rw [hindex] at hspec
    exact absurd (List.mem_of_getElem? hname) hspec
  | some j =>
    rw [hindex] at hspec
    obtain ⟨g, hg, hgname⟩ := hspec
    have hname' : (fields.map Field.name)[j]? = some f.name := by
      rw [List.getElem?_map, hg, Option.map_some, hgname]
    obtain ⟨hi, -⟩ := List.getElem?_eq_some_iff.mp hname
    rw [(List.getElem?_inj hi h).mp (hname.trans hname'.symm)]

/-! ## Regular layouts -/

/-- What holds of the sizes and names of a layout, whatever schema it is for. -/
structure Regular (layout : Layout) : Prop where
  /-- Nothing without a bound stands in a fixed place. -/
  bounded : ∀ slot ∈ layout.slots, slot.IsBounded
  /-- The size of an object is the sum of the sizes of its fields. -/
  objectLength : ∀ fields, layout = .object fields →
    layout.fixedLength? = some ((fixedSpans fields).map Span.length).sum
  /-- The optional fields of a map begin behind its fixed fields and the table: an entry for each
  optional field and the used length. -/
  mapDataStart : ∀ fields, layout = .map fields →
    dataStart fields = ((fixedSpans fields).map Span.length).sum + 4 * (optionalCount fields + 1)
  /-- The optional fields of a map are numbered from zero on. -/
  ordinals : ∀ fields, layout = .map fields →
    (optionals fields).map Field.ordinal? = (List.range (optionalCount fields)).map some
  /-- The items of a packed array have the layout of its primitive. -/
  packedItem : ∀ p capacity, layout = .packed p capacity → ∀ b i item,
    layout.itemSpan? b i = some item → item.1 = .primitive p
  /-- The fields of a record have names of their own. -/
  names : ∀ fields, layout.fields? = some fields → (fields.map Field.name).Nodup
  /-- The name of a field leads to its position. -/
  positions : ∀ fields, layout.fields? = some fields → ∀ i f, fields[i]? = some f →
    fieldIndex? fields f.name = some i

/-- What a schema with distinct fields asks for is regular. -/
theorem LaidOut.regular {s : Schema} (h : LaidOut s layout) (hs : s.Distinct) :
    layout.Regular where
  bounded slot hslot := by
    cases layout with
    | primitive p => cases hslot
    | text cap => cases hslot
    | blob cap => cases hslot
    | vector item limit => cases hslot
    | packed p capacity =>
      rw [List.mem_singleton.mp hslot]
      exact True.intro
    | array item stride capacity =>
      rw [List.mem_singleton.mp hslot]
      exact isBounded_of_fixedLength? h
    | dict key keyLength value =>
      rw [List.mem_singleton.mp hslot]
      exact isBounded_of_fixedLength? h
    | object fields => exact h.2.1.isBounded hslot
    | map fields =>
      obtain ⟨required, optional, -, -, -, harranged, -⟩ := h
      exact harranged.isBounded hslot
  objectLength fields heq := by
    rw [heq] at h ⊢
    rw [fixedLength?, h.2.1.fixedRegion_eq]
  mapDataStart fields heq := by
    rw [heq] at h
    obtain ⟨required, optional, -, -, -, harranged, -⟩ := h
    unfold dataStart usedLengthOffset endOffset Word.width
    rw [harranged.fixedRegion_eq]
    omega
  ordinals fields heq := by
    rw [heq] at h
    obtain ⟨required, optional, -, -, -, harranged, -⟩ := h
    exact harranged.ordinals
  packedItem p capacity heq b i item hitem := by
    rw [heq, itemSpan?] at hitem
    obtain ⟨span, -, rfl⟩ := Option.map_eq_some_iff.mp hitem
    rfl
  names fields hfields := h.nodup_names hs hfields
  positions fields hfields i f hf := fieldIndex?_of_nodup (h.nodup_names hs hfields) hf

/-- What holds of a layout and of all layouts nested in its parts holds of all nested in it. -/
theorem forall_within {P : Layout → Prop} (hself : P layout)
    (hparts : ∀ part ∈ layout.parts, ∀ inner, Within inner part → P inner) :
    ∀ inner, Within inner layout → P inner := by
  intro inner hinner
  cases hinner with
  | self => exact hself
  | array h => exact hparts _ List.mem_cons_self inner h
  | vector h => exact hparts _ List.mem_cons_self inner h
  | key h => exact hparts _ List.mem_cons_self inner h
  | value h => exact hparts _ (List.mem_cons_of_mem _ List.mem_cons_self) inner h
  | object hf h => exact hparts _ (List.mem_map_of_mem hf) inner h
  | map hf h => exact hparts _ (List.mem_map_of_mem hf) inner h

end Layout

/-! ## Catalogs -/

namespace Catalog

open Layout

variable {c : Catalog} {U : Schema → Prop} {G : Layout → Prop} {schemas : List Schema}

theorem Holds.submit (hc : c.Holds G) (hU : ∀ s, U s → ∀ child ∈ s.children, U child)
    (hG : PassedOn U G) {s : Schema} (hs : U s) :
    (∀ layout, ((submit s).run c).1 = .ok layout → G layout) ∧ ((submit s).run c).2.Holds G := by
  rw [submit_run]
  cases h : c.compile s with
  | error e => exact ⟨fun layout heq => absurd heq (by simp), hc⟩
  | ok result =>
    obtain ⟨hlayout, hc'⟩ := hc.compile hU hG hs h
    refine ⟨fun layout heq => ?_, hc'⟩
    cases heq
    exact hlayout

/-- Submitting gives layouts, and keeps a catalog of layouts, that satisfy what passes from parts to
the whole. -/
theorem Holds.submitAll (hc : c.Holds G) (hU : ∀ s, U s → ∀ child ∈ s.children, U child)
    (hG : PassedOn U G) (hschemas : ∀ s ∈ schemas, U s) :
    (∀ layout, .ok layout ∈ ((submitAll schemas).run c).1 → G layout)
      ∧ ((submitAll schemas).run c).2.Holds G := by
  induction schemas generalizing c with
  | nil => exact ⟨fun layout h => absurd h List.not_mem_nil, hc⟩
  | cons s rest ih =>
    obtain ⟨hs, hrest⟩ := List.forall_mem_cons.mp hschemas
    obtain ⟨hresult, hc'⟩ := hc.submit hU hG hs
    obtain ⟨hresults, hc''⟩ := ih hc' hrest
    refine ⟨fun layout h => ?_, hc''⟩
    rcases List.mem_cons.mp h with h | h
    · exact hresult layout h.symm
    · exact hresults layout h

/-- The layouts that come from submitting schemas to a new catalog: those that are given, and those
that the catalog then has under a name or a tag. -/
def Gives (settings : Settings) (schemas : List Schema) (layout : Layout) : Prop :=
  let (results, c) := (submitAll schemas).run (.ofSettings settings)
  .ok layout ∈ results ∨ (∃ id, c.byId? id = some layout) ∨ ∃ tag, c.byTag? tag = some layout

/-- What passes from the parts to the whole, every layout has that comes from submitted schemas. -/
theorem Gives.of_passedOn {settings : Settings} (hU : ∀ s, U s → ∀ child ∈ s.children, U child)
    (hG : PassedOn U G) (hschemas : ∀ s ∈ schemas, U s) {layout : Layout}
    (h : Gives settings schemas layout) : G layout := by
  obtain ⟨hresults, hnamed, htagged⟩ := (holds_ofSettings _ settings).submitAll hU hG hschemas
  rcases h with h | ⟨id, h⟩ | ⟨tag, h⟩
  · exact hresults layout h
  · exact Table.of_find? hnamed h
  · exact Table.of_find? htagged h

/-- **Regular layouts.**  Whatever is submitted, every layout that comes from it, and every layout
nested in one, is laid out for a schema in what was submitted, and is regular. -/
theorem gives_regular (settings : Settings) (schemas : List Schema)
    (hschemas : ∀ s ∈ schemas, s.Distinct) {layout part : Layout}
    (hlayout : Gives settings schemas layout) (hpart : Within part layout) :
    ∃ s ∈ schemas, ∃ node, node.Inside s ∧ LaidOut node part ∧ part.Regular := by
  let U : Schema → Prop := fun node => ∃ s ∈ schemas, node.Inside s
  let P : Layout → Prop := fun part =>
    ∃ s ∈ schemas, ∃ node, node.Inside s ∧ LaidOut node part ∧ part.Regular
  have hU : ∀ node, U node → ∀ child ∈ node.children, U child :=
    fun node ⟨s, hs, hnode⟩ child hchild => ⟨s, hs, hnode.of_child hchild⟩
  have hG : PassedOn U fun layout => ∀ part, Within part layout → P part := by
    rintro node layout ⟨s, hs, hnode⟩ hlaid - hparts
    exact forall_within ⟨s, hs, node, hnode, hlaid, hlaid.regular (hnode.distinct (hschemas s hs))⟩
      hparts
  exact hlayout.of_passedOn hU hG (fun s hs => ⟨s, hs, .self s⟩) part hpart

/-- A record that is referred to from a vector, in a map that is submitted after it. -/
theorem gives_regular_members :
    let person : Layout := .object
      [⟨"tag", .primitive .uint8, .fixed ⟨0, 1⟩, some (.int 1), none⟩,
        ⟨"name", .text (some 10), .fixed ⟨1, 10⟩, none, some 10⟩]
    let crew : Layout := .map [⟨"members", .vector person none, .optional 0, none, none⟩]
    ∃ schemas, Gives ⟨0⟩ schemas crew ∧ Within person crew
      ∧ ∃ s ∈ schemas, ∃ node, node.Inside s ∧ LaidOut node person ∧ person.Regular := by
  intro person crew
  let personSchema : Schema :=
    { id := some "Person", type := some .object
      properties := [("tag", (Schema.scalar .integer .uint8).withDefault (.number (.natural 1))),
        ("name", .string 10)] }
  let crewSchema : Schema :=
    { type := some .object, btype := some .map
      properties := [("members",
        { type := some .array, btype := some .vector, items := some (.referTo "Person") })] }
  have hperson : personSchema.Distinct := Schema.distinct_of_leaves (by decide) (by decide)
  have hcrew : crewSchema.Distinct := by
    refine .intro (by decide) fun child hchild => ?_
    rw [List.mem_singleton.mp hchild]
    exact Schema.distinct_of_leaves (by decide) (by decide)
  have hschemas : ∀ s ∈ [personSchema, crewSchema], s.Distinct := by
    intro s hs
    rcases List.mem_cons.mp hs with rfl | hs
    · exact hperson
    · rw [List.mem_singleton.mp hs]
      exact hcrew
  have hgives : Gives ⟨0⟩ [personSchema, crewSchema] crew :=
    Or.inl (List.mem_cons_of_mem _ (List.mem_singleton.mpr rfl))
  have hwithin : Within person crew := .map List.mem_cons_self (.vector (.self person))
  exact ⟨_, hgives, hwithin, gives_regular ⟨0⟩ _ hschemas hgives hwithin⟩

end Catalog

end BinarySchema
