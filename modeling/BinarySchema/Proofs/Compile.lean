/-
# Compiled layouts are laid out as their schemas ask

The layout of a schema has the sizes of its parts and the fields that the schema declares
(`Layout.LaidOut`), and its parts are layouts of the schemas in it or of names.  So whatever passes
from the parts of such a layout to the whole (`Layout.PassedOn`) holds of every layout that compiling
gives, and of every layout that it claims a tag for, which is the tag of its own tag field
(`Compile.ensures_compile`).

A compilation is followed by what its results satisfy (`CompileM.Ensures`).
-/
import BinarySchema.Catalog.Compile
import BinarySchema.Proofs.WellFormed

namespace BinarySchema

/-- The fields of every record in the schema have names of their own. -/
inductive Schema.Distinct : Schema → Prop
  | intro {s : Schema} (hnames : (s.properties.map (·.1)).Nodup)
      (hchildren : ∀ child ∈ s.children, child.Distinct) : s.Distinct

theorem Schema.Distinct.names {s : Schema} (hs : s.Distinct) : (s.properties.map (·.1)).Nodup := by
  cases hs with
  | intro hnames _ => exact hnames

theorem Schema.Distinct.children {s : Schema} (hs : s.Distinct) :
    ∀ child ∈ s.children, child.Distinct := by
  cases hs with
  | intro _ hchildren => exact hchildren

theorem Schema.distinct_of_leaves {s : Schema} (hnames : (s.properties.map (·.1)).Nodup)
    (hchildren : ∀ child ∈ s.children, child.properties = [] ∧ child.children = []) :
    s.Distinct := by
  refine .intro hnames fun child hchild => .intro ?_ ?_
  · rw [(hchildren child hchild).1]
    exact List.nodup_nil
  · rw [(hchildren child hchild).2]
    exact fun part hpart => absurd hpart List.not_mem_nil

/-! ## Induction over schemas -/

namespace Schema

theorem sizeOf_lt_of_mem_children {s child : Schema} (h : child ∈ s.children) :
    sizeOf child < sizeOf s := by
  obtain ⟨facts, properties, items, propertyNames, additionalProperties⟩ := s
  simp only [children, List.mem_append, List.mem_map, Option.mem_toList] at h
  rw [Schema.mk.sizeOf_spec]
  rcases h with ((⟨f, hf, rfl⟩ | rfl) | rfl) | rfl
  · have hlt := List.sizeOf_lt_of_mem hf
    obtain ⟨name, s⟩ := f
    rw [Prod.mk.sizeOf_spec] at hlt
    dsimp only
    omega
  all_goals
    rw [Option.some.sizeOf_spec]
    omega

theorem forall_mem_children {P : Schema → Prop} {s : Schema} : (∀ child ∈ s.children, P child) ↔
    (∀ part ∈ s.properties.map (·.2), P part) ∧ (∀ part ∈ s.items.toList, P part)
      ∧ (∀ part ∈ s.propertyNames.toList, P part)
      ∧ ∀ part ∈ s.additionalProperties.toList, P part := by
  simp only [children, List.forall_mem_append, and_assoc]

/-- What a schema has whenever its children have it, every schema has. -/
@[elab_as_elim]
theorem induction {P : Schema → Prop} (h : ∀ s, (∀ child ∈ s.children, P child) → P s)
    (s : Schema) : P s :=
  h s fun child _ => induction h child
termination_by sizeOf s
decreasing_by
  next hchild => exact sizeOf_lt_of_mem_children hchild

end Schema

/-! ## Results of compilations -/

/-- The field that holds the tag of a record. -/
def Layout.tagField? (layout : Layout) : Option (Field Layout) :=
  layout.fields?.bind fun fields => fieldNamed? fields Compile.tagName

/-- The tag that a layout claims: the default of its tag field, if that can be read from the first
byte. -/
def Layout.claimedTag? (layout : Layout) : Option UInt8 :=
  layout.tagField?.bind fun f => f.default.bind (Compile.tagOf? f)

/-- A tag field with a default can be read as a tag. -/
def Layout.TagPlaced (layout : Layout) : Prop :=
  (layout.tagField?.bind Field.default).isSome → layout.claimedTag?.isSome

instance (layout : Layout) : Decidable layout.TagPlaced :=
  inferInstanceAs (Decidable (_ → _))

namespace CompileM

variable {α β : Type} {x : CompileM α} {G : Layout → Prop} {P Q : α → Prop}

/-- A claim that its layout makes, which satisfies `G`. -/
def IsClaim (G : Layout → Prop) (e : UInt8 × Layout) : Prop :=
  G e.2 ∧ e.2.claimedTag? = some e.1

/-- Claims that are made before do not matter to the compilation, whose own claims come behind
them.  What it gives satisfies `P`, and the layouts whose tags it claims satisfy `G`. -/
structure Ensures (G : Layout → Prop) (x : CompileM α) (P : α → Prop) : Prop where
  framed : ∀ claims, x.run claims = (x.run []).map fun result => (result.1, claims ++ result.2)
  result : ∀ a claims, x.run [] = .ok (a, claims) → P a ∧ ∀ e ∈ claims, IsClaim G e

theorem Ensures.lift {y : Except CompileError α} (h : ∀ a, y = .ok a → P a) :
    Ensures G (liftM y) P where
  framed claims := by
    cases y with
    | error e => rfl
    | ok a =>
      show Except.ok (a, claims) = .ok (a, claims ++ [])
      rw [List.append_nil]
  result a claims hrun := by
    cases y with
    | error e => cases hrun
    | ok b =>
      cases hrun
      exact ⟨h _ rfl, fun e he => absurd he List.not_mem_nil⟩

theorem Ensures.pure {a : α} (h : P a) : Ensures G (Pure.pure a) P :=
  Ensures.lift (y := .ok a) fun b hb => by
    cases hb
    exact h

theorem Ensures.throw (e : CompileError) : Ensures G (MonadExcept.throw e : CompileM α) P :=
  Ensures.lift (y := .error e) fun a ha => by cases ha

/-- A compilation that goes on with the result of another. -/
theorem Ensures.bind {f : α → CompileM β} {Q : β → Prop} (hx : Ensures G x P)
    (hf : ∀ a, P a → Ensures G (f a) Q) : Ensures G (x >>= f) Q := by
  constructor
  · intro claims
    rw [StateT.run_bind, StateT.run_bind, hx.framed claims]
    cases hrun : x.run [] with
    | error e => rfl
    | ok result =>
      obtain ⟨a, new⟩ := result
      have ha := hf a (hx.result a new hrun).1
      show (f a).run (claims ++ new) = ((f a).run new).map _
      rw [ha.framed (claims ++ new), ha.framed new]
      cases (f a).run [] with
      | error e => rfl
      | ok result => simp only [Except.map, List.append_assoc]
  · intro b claims hrun
    rw [StateT.run_bind] at hrun
    cases hfirst : x.run [] with
    | error e =>
      rw [hfirst] at hrun
      cases hrun
    | ok result =>
      obtain ⟨a, new⟩ := result
      obtain ⟨ha, hnew⟩ := hx.result a new hfirst
      have hrest := hf a ha
      rw [hfirst] at hrun
      replace hrun : (f a).run new = .ok (b, claims) := hrun
      rw [hrest.framed new] at hrun
      cases hsecond : (f a).run [] with
      | error e =>
        rw [hsecond] at hrun
        cases hrun
      | ok result =>
        obtain ⟨b', more⟩ := result
        rw [hsecond] at hrun
        cases hrun
        obtain ⟨hb, hmore⟩ := hrest.result _ more hsecond
        refine ⟨hb, fun e he => ?_⟩
        rcases List.mem_append.mp he with he | he
        · exact hnew e he
        · exact hmore e he

theorem Ensures.imp (hx : Ensures G x P) (h : ∀ a, P a → Q a) : Ensures G x Q :=
  ⟨hx.framed, fun a claims hrun => (hx.result a claims hrun).imp_left (h a)⟩

theorem Ensures.map {f : α → β} {Q : β → Prop} (hx : Ensures G x fun a => Q (f a)) :
    Ensures G (f <$> x) Q := by
  rw [← bind_pure_comp]
  exact hx.bind fun a ha => Ensures.pure ha

end CompileM

/-! ## What a schema asks of its layout -/

namespace Layout

/-- The layouts that a layout is put together from. -/
def parts : Layout → List Layout
  | .primitive _ | .text _ | .blob _ => []
  | .packed p _ => [.primitive p]
  | .array item _ _ | .vector item _ => [item]
  | .dict key _ value => [key, value]
  | .object fields | .map fields => fields.map Field.layout

/-- The layout has the sizes of its parts, and the fields that the schema declares, in the order of
declaration.  A map has the required ones first. -/
def LaidOut (s : Schema) : Layout → Prop
  | .primitive _ | .text _ | .blob _ | .vector _ _ => True
  | .packed p _ => p.isNumeric
  | .array item stride _ => item.fixedLength? = some stride
  | .dict key keyLength _ => key.fixedLength? = some keyLength
  | .object fields =>
    fields.map Field.name = s.properties.map (·.1) ∧ Arranged 0 0 fields
      ∧ ∀ f ∈ fields, f.ordinal? = none
  | .map fields => ∃ required optional, fields = required ++ optional
    ∧ required.map Field.name = (s.properties.map (·.1)).filter s.required.contains
    ∧ optional.map Field.name
      = (s.properties.map (·.1)).filter (fun name => !s.required.contains name)
    ∧ Arranged 0 0 fields ∧ (∀ f ∈ required, f.ordinal? = none)
    ∧ ∀ f ∈ optional, f.span? = none

/-- The default of the field, if it has one, has been read from a document. -/
def DefaultRead (f : Field Layout) : Prop := ∀ x, f.default = some x → ∃ j, x = Value.ofJson j

/-- The defaults of the fields have been read from documents. -/
def DefaultsRead (layout : Layout) : Prop :=
  ∀ fields, layout.fields? = some fields → ∀ f ∈ fields, DefaultRead f

theorem defaultsRead_of_fields?_eq_none {layout : Layout} (h : layout.fields? = none) :
    layout.DefaultsRead := by
  intro fields hfields
  rw [h] at hfields
  cases hfields

/-- The layout is laid out for the schema, of parts that satisfy `G`. -/
structure LaidOutOf (G : Layout → Prop) (s : Schema) (layout : Layout) : Prop where
  /-- Its sizes and fields. -/
  laid : LaidOut s layout
  /-- Its parts. -/
  parts : ∀ part ∈ layout.parts, G part
  /-- Its defaults. -/
  defaults : layout.DefaultsRead

/-- What all parts of a layout of one of the schemas have, it has itself, if its tag can be read and
its defaults have been. -/
def PassedOn (U : Schema → Prop) (G : Layout → Prop) : Prop :=
  ∀ s layout, U s → LaidOut s layout → layout.TagPlaced ∧ layout.DefaultsRead →
    (∀ part ∈ layout.parts, G part) → G layout

/-- Names that are chosen and names that are not, each at most once, are names of their own. -/
theorem nodup_filter_append {names : List String} (h : names.Nodup) (p : String → Bool) :
    (names.filter p ++ names.filter fun name => !p name).Nodup := by
  refine List.Nodup.append (h.filter _) (h.filter _) ?_
  intro name hin hout
  rw [List.mem_filter] at hin hout
  exact absurd hin.2 (by simpa using hout.2)

/-- The fields of a record have names of their own. -/
theorem LaidOut.nodup_names {s : Schema} {layout : Layout} (h : LaidOut s layout) (hs : s.Distinct)
    {fields : List (Field Layout)} (hfields : layout.fields? = some fields) :
    (fields.map Field.name).Nodup := by
  cases layout with
  | object fields' =>
    cases hfields
    rw [h.1]
    exact hs.names
  | map fields' =>
    cases hfields
    obtain ⟨required, optional, rfl, hrequired, hoptional, -⟩ := h
    rw [List.map_append, hrequired, hoptional]
    exact nodup_filter_append hs.names _
  | _ => cases hfields

/-- To be well-formed passes from the parts of a layout to the whole. -/
theorem passedOn_wellFormed : PassedOn Schema.Distinct WellFormed := by
  intro s layout hs hlaid _ hparts
  have hnames := @LaidOut.nodup_names s layout hlaid hs
  cases layout with
  | primitive p => exact .primitive p
  | text cap => exact .text cap
  | blob cap => exact .blob cap
  | packed p capacity => exact .packed p capacity
  | array item stride capacity => exact .array capacity (hparts item List.mem_cons_self) hlaid
  | vector item limit => exact .vector limit (hparts item List.mem_cons_self)
  | dict key keyLength value =>
    exact .dict (hparts key List.mem_cons_self) hlaid
      (hparts value (List.mem_cons_of_mem key List.mem_cons_self))
  | object fields =>
    exact .object (List.forall_mem_map.mp hparts) hlaid.2.1 hlaid.2.2 (hnames rfl)
  | map fields =>
    obtain ⟨required, optional, -, -, -, harranged, -⟩ := hlaid
    exact .map (List.forall_mem_map.mp hparts) harranged (hnames rfl)

end Layout

namespace Compile

open CompileM Layout

variable {known : String → Option Layout} {U : Schema → Prop} {G : Layout → Prop} {s : Schema}

/-! ## Parts of a schema -/

theorem requireFixed_ok {layout : Layout} {place : String} {n : Nat}
    (h : requireFixed layout place = .ok n) : layout.fixedLength? = some n := by
  unfold requireFixed at h
  split at h
  · next heq =>
    rw [Except.ok.injEq] at h
    rw [heq, h]
  all_goals cases h

theorem ensures_requireFixed (layout : Layout) (place : String) :
    Ensures G (liftM (requireFixed layout place)) fun n => layout.fixedLength? = some n :=
  Ensures.lift fun _ hn => requireFixed_ok hn

/-- A layout claims its tag, or none if its tag field has no default.  A tag field with a default
that cannot be read as a tag is an error. -/
theorem claimTag_run (layout : Layout) (place : String) (claims : TagClaims) :
    (claimTag layout place).run claims = if layout.TagPlaced
      then .ok ((), claims ++ (layout.claimedTag?.map (·, layout)).toList)
      else .error (.misplacedTag place) := by
  have hfield : (layout.fields?.bind fun fields => fieldNamed? fields tagName)
      = layout.tagField? := rfl
  -- where there is no default, no claim is added
  have hnothing : (StateT.run (pure ()) claims : Except CompileError (Unit × TagClaims))
      = .ok ((), claims ++ []) := by
    rw [List.append_nil]
    rfl
  rw [claimTag, hfield]
  cases hf : layout.tagField? with
  | none =>
    have hplaced : layout.TagPlaced := by
      rw [TagPlaced, hf]
      exact fun h => by cases h
    rw [if_pos hplaced, claimedTag?, hf]
    exact hnothing
  | some f =>
    have hclaimed : layout.claimedTag? = f.default.bind (tagOf? f) := by
      rw [claimedTag?, hf, Option.bind_some]
    have hplaced : layout.TagPlaced ↔ (f.default.isSome → (f.default.bind (tagOf? f)).isSome) := by
      rw [TagPlaced, hf, hclaimed, Option.bind_some]
    rw [hclaimed]
    dsimp only
    cases hd : f.default with
    | none =>
      rw [if_pos (hplaced.mpr (by rw [hd]; exact fun h => by cases h))]
      exact hnothing
    | some d =>
      rw [hd, Option.bind_some] at hplaced
      rw [Option.bind_some]
      dsimp only
      cases htag : tagOf? f d with
      | none =>
        rw [if_neg (by rw [hplaced, htag]; simp)]
        rfl
      | some tag =>
        rw [if_pos (by rw [hplaced, htag]; simp)]
        rfl

theorem ensures_claimTag {layout : Layout} (hlayout : layout.TagPlaced → G layout) (place : String) :
    Ensures G (claimTag layout place) fun _ => layout.TagPlaced where
  framed claims := by
    rw [claimTag_run, claimTag_run]
    split_ifs <;> rfl
  result a claims h := by
    rw [claimTag_run] at h
    split_ifs at h with hplaced
    cases h
    refine ⟨hplaced, fun e he => ?_⟩
    obtain ⟨tag, htag, rfl⟩ := Option.map_eq_some_iff.mp (Option.mem_toList.mp he)
    exact ⟨hlayout hplaced, htag⟩

theorem ensures_resolve (hknown : ∀ id layout, known id = some layout → G layout)
    {inPlace : CompileM Layout} (h : Ensures G inPlace G) :
    Ensures G (resolve known s inPlace) G := by
  unfold resolve
  split
  · split
    · next heq => exact Ensures.pure (hknown _ _ heq)
    · exact Ensures.throw _
  · split
    · next heq =>
      obtain ⟨id, -, hid⟩ := Option.bind_eq_some_iff.mp heq
      exact Ensures.pure (hknown id _ hid)
    · exact h

/-- A list is laid out with the size of its items, of which it is put together, and has no fields. -/
theorem listLayout_ok {facts : SchemaFacts} {item layout : Layout} {place : String}
    (h : listLayout facts item place = .ok layout) :
    LaidOut s layout ∧ layout.parts = [item] ∧ layout.fields? = none := by
  unfold listLayout at h
  split at h
  · cases h
    exact ⟨True.intro, rfl, rfl⟩
  · cases h
  · split at h
    · split at h
      · split_ifs at h with hnumeric
        · cases h
          exact ⟨hnumeric, rfl, rfl⟩
        · cases h
          exact ⟨rfl, rfl, rfl⟩
      · cases hlength : requireFixed item (place ++ "[]") with
        | error e =>
          rw [hlength] at h
          cases h
        | ok n =>
          rw [hlength] at h
          cases h
          exact ⟨requireFixed_ok hlength, rfl, rfl⟩
    · cases h

/-! ## Records -/

/-- What is asked of the schemas of parts: wherever they stand, their layouts satisfy `G`. -/
def PartsEnsured (known : String → Option Layout) (G : Layout → Prop) (parts : List Schema) :
    Prop :=
  ∀ part ∈ parts, ∀ place, Ensures G (compile known place part) G

theorem ensures_compileOption (hknown : ∀ id layout, known id = some layout → G layout)
    {part : Option Schema} (hpart : PartsEnsured known G part.toList) (place : String) :
    Ensures G (compileOption known place part) G := by
  cases part with
  | none =>
    unfold compileOption missing
    exact Ensures.throw _
  | some s =>
    unfold compileOption
    exact ensures_resolve hknown (hpart s (by simp) place)

theorem defaultRead_fieldOf (name : String) (s : Schema) (layout : Layout) (place : Place) :
    DefaultRead (fieldOf name s layout place) := by
  intro x hx
  obtain ⟨j, -, rfl⟩ := Option.map_eq_some_iff.mp hx
  exact ⟨j, rfl⟩

/-- The chosen fields are arranged in fixed places from `start` on, and keep their names and
defaults. -/
theorem ensures_compileFixed (hknown : ∀ id layout, known id = some layout → G layout)
    {properties : List (String × Schema)} (hparts : PartsEnsured known G (properties.map (·.2)))
    (place : String) (chosen : String → Bool) (start ordinal : Nat) :
    Ensures G (compileFixed known place chosen properties start) fun fields =>
      (∀ f ∈ fields, G f.layout ∧ DefaultRead f) ∧ Arranged start ordinal fields
        ∧ (∀ f ∈ fields, f.ordinal? = none)
        ∧ fields.map Field.name = (properties.map (·.1)).filter chosen := by
  induction properties generalizing start with
  | nil =>
    unfold compileFixed
    exact Ensures.pure ⟨fun f hf => absurd hf List.not_mem_nil, True.intro,
      fun f hf => absurd hf List.not_mem_nil, rfl⟩
  | cons property rest ih =>
    have hrest : PartsEnsured known G (rest.map (·.2)) :=
      fun part hpart => hparts part (List.mem_cons_of_mem _ hpart)
    unfold compileFixed
    split_ifs with hchosen
    · refine (ensures_resolve hknown (hparts property.2 List.mem_cons_self _)).bind ?_
      intro layout hlayout
      refine (ensures_requireFixed layout _).bind ?_
      intro length hlength
      refine (ih hrest (start + length)).bind ?_
      rintro fields ⟨hfields, harranged, hfixed, hnames⟩
      refine Ensures.pure ⟨?_, ?_, ?_, ?_⟩
      · intro f hf
        rcases List.mem_cons.mp hf with rfl | hf
        · exact ⟨hlayout, defaultRead_fieldOf _ _ _ _⟩
        · exact hfields f hf
      · rw [Arranged.cons_fixed rfl]
        exact ⟨rfl, hlength, harranged⟩
      · intro f hf
        rcases List.mem_cons.mp hf with rfl | hf
        · rfl
        · exact hfixed f hf
      · rw [List.map_cons, List.map_cons, List.filter_cons_of_pos hchosen, hnames]
        rfl
    · rw [List.map_cons, List.filter_cons_of_neg hchosen]
      exact ih hrest start

/-- The fields that are not required are arranged as optional ones from `ordinal` on, and keep
their names and defaults. -/
theorem ensures_compileOptional (hknown : ∀ id layout, known id = some layout → G layout)
    {properties : List (String × Schema)} (hparts : PartsEnsured known G (properties.map (·.2)))
    (place : String) (isRequired : String → Bool) (ordinal : Nat) :
    Ensures G (compileOptional known place isRequired properties ordinal) fun fields =>
      (∀ f ∈ fields, G f.layout ∧ DefaultRead f) ∧ (∀ start, Arranged start ordinal fields)
        ∧ (∀ f ∈ fields, f.span? = none)
        ∧ fields.map Field.name = (properties.map (·.1)).filter fun name => !isRequired name := by
  induction properties generalizing ordinal with
  | nil =>
    unfold compileOptional
    exact Ensures.pure ⟨fun f hf => absurd hf List.not_mem_nil, fun _ => True.intro,
      fun f hf => absurd hf List.not_mem_nil, rfl⟩
  | cons property rest ih =>
    have hrest : PartsEnsured known G (rest.map (·.2)) :=
      fun part hpart => hparts part (List.mem_cons_of_mem _ hpart)
    unfold compileOptional
    split_ifs with hrequired
    · rw [List.map_cons, List.filter_cons_of_neg (by rw [hrequired]; simp)]
      exact ih hrest ordinal
    · refine (ensures_resolve hknown (hparts property.2 List.mem_cons_self _)).bind ?_
      intro layout hlayout
      refine (ih hrest (ordinal + 1)).bind ?_
      rintro fields ⟨hfields, harranged, hoptional, hnames⟩
      refine Ensures.pure ⟨?_, ?_, ?_, ?_⟩
      · intro f hf
        rcases List.mem_cons.mp hf with rfl | hf
        · exact ⟨hlayout, defaultRead_fieldOf _ _ _ _⟩
        · exact hfields f hf
      · intro start
        rw [Arranged.cons_optional rfl]
        exact ⟨rfl, harranged start⟩
      · intro f hf
        rcases List.mem_cons.mp hf with rfl | hf
        · rfl
        · exact hoptional f hf
      · rw [List.map_cons, List.map_cons, List.filter_cons_of_pos (by simpa using hrequired),
          hnames]
        rfl

/-! ## Schemas -/

/-- **Compilation.**  What the layouts of schemas have from all their parts, and known layouts have,
the layout of a schema has, wherever it stands, and every layout has whose tag is claimed. -/
theorem ensures_compile (hU : ∀ s, U s → ∀ child ∈ s.children, U child) (hG : PassedOn U G)
    (hknown : ∀ id layout, known id = some layout → G layout) (s : Schema) (hs : U s) :
    ∀ place, Ensures G (compile known place s) G := by
  induction s using Schema.induction with
  | h s ih =>
    intro place
    have hchildren : PartsEnsured known G s.children :=
      fun part hpart place => ih part hpart (hU s hs part hpart) place
    -- every branch ends by claiming the tag, which does not change the layout
    have hclaim : ∀ x : CompileM Layout, Ensures G x (LaidOutOf G s) → Ensures G (x >>= fun layout =>
        claimTag layout place >>= fun _ => pure layout) G := by
      refine fun x hx => hx.bind fun layout hlayout => ?_
      have hplaced : layout.TagPlaced → G layout := fun hplaced =>
        hG s layout hs hlayout.laid ⟨hplaced, hlayout.defaults⟩ hlayout.parts
      exact (ensures_claimTag hplaced place).bind fun _ h => Ensures.pure (hplaced h)
    obtain ⟨facts, properties, items, propertyNames, additionalProperties⟩ := s
    obtain ⟨hproperties, hitems, hkeys, hvalues⟩ := Schema.forall_mem_children.mp hchildren
    have hnone : ∀ part ∈ ([] : List Layout), G part :=
      fun part hpart => absurd hpart List.not_mem_nil
    have hleaf : ∀ t, Ensures G (compile.leaf facts t place) (LaidOutOf G
        ⟨facts, properties, items, propertyNames, additionalProperties⟩) := by
      intro t
      unfold compile.leaf
      split
      · exact Ensures.pure ⟨True.intro, hnone, defaultsRead_of_fields?_eq_none rfl⟩
      · exact Ensures.throw _
    rw [compile]
    split
    · exact hclaim _ (Ensures.throw _)
    · exact hclaim _ (hleaf _)
    · exact hclaim _ (hleaf _)
    · exact hclaim _ (hleaf _)
    · dsimp only
      split
      · exact hclaim _ (Ensures.pure ⟨True.intro, hnone, defaultsRead_of_fields?_eq_none rfl⟩)
      · exact hclaim _ (Ensures.pure ⟨True.intro, hnone, defaultsRead_of_fields?_eq_none rfl⟩)
      · exact hclaim _ (Ensures.throw _)
    -- a list needs the layout of its items
    · refine (ensures_compileOption hknown hitems _).bind ?_
      intro item hitem
      refine hclaim _ (Ensures.lift fun layout hlayout => ?_)
      obtain ⟨hlaid, hparts, hfields⟩ := listLayout_ok hlayout
      refine ⟨hlaid, ?_, defaultsRead_of_fields?_eq_none hfields⟩
      rw [hparts]
      exact List.forall_mem_singleton.mpr hitem
    · split
      -- an object has all its fields in fixed places
      · refine hclaim _ (Ensures.map ((ensures_compileFixed hknown hproperties place _ 0 0).imp ?_))
        rintro fields ⟨hfields, harranged, hfixed, hnames⟩
        rw [List.filter_true] at hnames
        refine ⟨⟨hnames, harranged, hfixed⟩,
          List.forall_mem_map.mpr fun f hf => (hfields f hf).1, ?_⟩
        rintro _ ⟨⟩ f hf
        exact (hfields f hf).2
      -- a map has the required fields first, in fixed places, and the others behind them
      · refine (ensures_compileFixed hknown hproperties place _ 0 0).bind ?_
        rintro fixed ⟨hfieldsFixed, harranged, hfixed, hnamesFixed⟩
        refine (ensures_compileOptional hknown hproperties place _ 0).bind ?_
        rintro optional ⟨hfieldsOptional, harranged', hoptional, hnamesOptional⟩
        have hfields : ∀ f ∈ fixed ++ optional, G f.layout ∧ DefaultRead f :=
          List.forall_mem_append.mpr ⟨hfieldsFixed, hfieldsOptional⟩
        refine hclaim _ (Ensures.pure ⟨⟨fixed, optional, rfl, hnamesFixed, hnamesOptional,
          harranged.append hfixed harranged', hfixed, hoptional⟩,
          List.forall_mem_map.mpr fun f hf => (hfields f hf).1, ?_⟩)
        rintro _ ⟨⟩ f hf
        exact (hfields f hf).2
      -- a dict has keys of a fixed size
      · refine (ensures_compileOption hknown hkeys _).bind ?_
        intro key hkey
        refine (ensures_requireFixed key _).bind ?_
        intro keyLength hlength
        refine (ensures_compileOption hknown hvalues _).bind ?_
        intro value hvalue
        exact hclaim _ (Ensures.pure ⟨hlength,
          List.forall_mem_cons.mpr ⟨hkey, List.forall_mem_singleton.mpr hvalue⟩,
          defaultsRead_of_fields?_eq_none rfl⟩)
      · exact hclaim _ (Ensures.throw _)

end Compile

end BinarySchema
