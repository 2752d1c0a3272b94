/-
# What a schema names

Compiling a schema looks up only ids that occur in it.  `Compile.compile_congr` is the one place where
compiling is taken apart for that: a schema is told by its facts and by what its parts resolve to.
From it follows that a schema resolves alike wherever the ids that it looks up (`Compile.LooksUp`)
stand for the same layouts.

Where all ids have layouts, what is looked up is what the schema names (`Schema.Names`): the first id
or reference on each path.  These are also the dependencies that a walk notes.
-/
import BinarySchema.Proofs.Dependencies

namespace BinarySchema

/-! ## Occurrences -/

namespace Schema

/-- The id occurs in the schema: it is the id of a schema in it, or one that is referred to. -/
inductive Mentions (id : String) : Schema → Prop
  | id {s : Schema} (h : s.id = some id) : Mentions id s
  | reference {s : Schema} (h : s.reference = some id) : Mentions id s
  | child {s child : Schema} (hchild : child ∈ s.children) (h : Mentions id child) : Mentions id s

theorem mentions_iff {s : Schema} {id : String} : s.Mentions id ↔
    s.id = some id ∨ s.reference = some id ∨ ∃ child ∈ s.children, child.Mentions id := by
  constructor
  · rintro (h | h | ⟨hchild, h⟩)
    · exact Or.inl h
    · exact Or.inr (Or.inl h)
    · exact Or.inr (Or.inr ⟨_, hchild, h⟩)
  · rintro (h | h | ⟨child, hchild, h⟩)
    · exact .id h
    · exact .reference h
    · exact .child hchild h

/-- The id is the first one on some path into the schema. -/
inductive Names (id : String) : Schema → Prop
  | reference {s : Schema} (hs : s.reference = some id) : Names id s
  | id {s : Schema} (hs : s.reference = none) (hid : s.id = some id) : Names id s
  | child {s child : Schema} (hs : s.reference = none) (hid : s.id = none)
      (hchild : child ∈ s.children) (h : Names id child) : Names id s

/-- The id is named by a child. -/
def NamesBelow (id : String) (s : Schema) : Prop := ∃ child ∈ s.children, child.Names id

variable {s : Schema} {id : String}

theorem names_of_reference {r : String} (hs : s.reference = some r) : s.Names id ↔ id = r := by
  constructor
  · rintro (h | h | h)
    · exact Option.some.inj (h.symm.trans hs)
    all_goals simp [hs] at h
  · rintro rfl
    exact .reference hs

theorem names_of_id {i : String} (hs : s.reference = none) (hid : s.id = some i) :
    s.Names id ↔ id = i := by
  constructor
  · rintro (h | ⟨-, h⟩ | ⟨-, h⟩)
    · simp [hs] at h
    · exact Option.some.inj (h.symm.trans hid)
    · simp [hid] at h
  · rintro rfl
    exact .id hs hid

theorem names_of_anonymous (hs : s.reference = none) (hid : s.id = none) :
    s.Names id ↔ s.NamesBelow id := by
  constructor
  · rintro (h | ⟨-, h⟩ | ⟨-, -, hchild, h⟩)
    · simp [hs] at h
    · simp [hid] at h
    · exact ⟨_, hchild, h⟩
  · rintro ⟨child, hchild, h⟩
    exact .child hs hid hchild h

end Schema

/-! ## Parts that are compiled alike -/

namespace Compile

/-- By the layouts that are known to either, the schemas resolve to the same, wherever they stand,
and fields of them are alike. -/
structure Alike (known known' : String → Option Layout) (s s' : Schema) : Prop where
  resolve (place : String) :
    resolve known s (compile known place s) = resolve known' s' (compile known' place s')
  default : s.default = s'.default
  maxLength : s.maxLength = s'.maxLength

/-- The schemas have the same facts, and the same parts up to likeness. -/
structure AlikeInParts (known known' : String → Option Layout) (s s' : Schema) : Prop where
  facts : s.toSchemaFacts = s'.toSchemaFacts
  properties : List.Forall₂ (fun f f' => f.1 = f'.1 ∧ Alike known known' f.2 f'.2)
    s.properties s'.properties
  items : Option.Rel (Alike known known') s.items s'.items
  propertyNames : Option.Rel (Alike known known') s.propertyNames s'.propertyNames
  additionalProperties :
    Option.Rel (Alike known known') s.additionalProperties s'.additionalProperties

variable {known known' : String → Option Layout} {s s' : Schema}

theorem compileOption_congr {part part' : Option Schema}
    (h : Option.Rel (Alike known known') part part') (place : String) :
    compileOption known place part = compileOption known' place part' := by
  rcases h with h | _
  · unfold compileOption
    exact h.resolve place
  · unfold compileOption
    rfl

theorem fieldOf_congr (h : Alike known known' s s') (name : String) (layout : Layout)
    (place : Place) : fieldOf name s layout place = fieldOf name s' layout place := by
  simp only [fieldOf, Schema.defaultValue?, h.default, h.maxLength]

section

variable {properties properties' : List (String × Schema)}
  (h : List.Forall₂ (fun f f' => f.1 = f'.1 ∧ Alike known known' f.2 f'.2) properties properties')

include h

theorem compileFixed_congr (place : String) (chosen : String → Bool) (start : Nat) :
    compileFixed known place chosen properties start
      = compileFixed known' place chosen properties' start := by
  induction h generalizing start with
  | nil =>
    unfold compileFixed
    rfl
  | @cons f f' rest rest' hf hrest ih =>
    obtain ⟨hname, halike⟩ := hf
    unfold compileFixed
    rw [← hname]
    simp only [← halike.resolve, ih, fieldOf_congr halike]

theorem compileOptional_congr (place : String) (isRequired : String → Bool) (ordinal : Nat) :
    compileOptional known place isRequired properties ordinal
      = compileOptional known' place isRequired properties' ordinal := by
  induction h generalizing ordinal with
  | nil =>
    unfold compileOptional
    rfl
  | @cons f f' rest rest' hf hrest ih =>
    obtain ⟨hname, halike⟩ := hf
    unfold compileOptional
    rw [← hname]
    simp only [← halike.resolve, ih, fieldOf_congr halike]

end

/-- **Compiling by parts.**  A schema is compiled by its facts and by what its parts resolve to. -/
theorem compile_congr (h : AlikeInParts known known' s s') (place : String) :
    compile known place s = compile known' place s' := by
  obtain ⟨hfacts, hproperties, hitems, hkeys, hvalues⟩ := h
  obtain ⟨facts, properties, items, propertyNames, additionalProperties⟩ := s
  obtain ⟨facts', properties', items', propertyNames', additionalProperties'⟩ := s'
  obtain rfl : facts = facts' := hfacts
  rw [compile, compile]
  simp only [compileFixed_congr hproperties, compileOptional_congr hproperties,
    compileOption_congr hitems, compileOption_congr hkeys, compileOption_congr hvalues]

/-- A schema with parts that resolve alike. -/
theorem alikeInParts_self (h : ∀ child ∈ s.children, ∀ place,
      resolve known child (compile known place child)
        = resolve known' child (compile known' place child)) :
    AlikeInParts known known' s s := by
  have halike : ∀ child ∈ s.children, Alike known known' child child :=
    fun child hchild => ⟨h child hchild, rfl, rfl⟩
  have hoption : ∀ part : Option Schema, (∀ child ∈ part.toList, Alike known known' child child) →
      Option.Rel (Alike known known') part part := by
    rintro (_ | child) hpart
    · exact .none
    · exact .some (hpart child (by simp))
  obtain ⟨hfields, hitems, hkeys, hvalues⟩ := Schema.forall_mem_children.mp halike
  exact ⟨rfl, List.forall₂_same.mpr fun f hf => ⟨rfl, hfields f.2 (List.mem_map_of_mem hf)⟩,
    hoption _ hitems, hoption _ hkeys, hoption _ hvalues⟩

/-! ## What is looked up -/

/-- The id is looked up when the schema is resolved. -/
inductive LooksUp (known : String → Option Layout) (id : String) : Schema → Prop
  | reference {s : Schema} (hs : s.reference = some id) : LooksUp known id s
  | id {s : Schema} (hs : s.reference = none) (hid : s.id = some id) : LooksUp known id s
  | child {s child : Schema} (hs : s.reference = none) (hid : s.id.bind known = none)
      (hchild : child ∈ s.children) (h : LooksUp known id child) : LooksUp known id s

theorem LooksUp.mentions {id : String} (h : LooksUp known id s) : s.Mentions id := by
  induction h with
  | reference hs => exact .reference hs
  | id hs hid => exact .id hid
  | child hs hid hchild h ih => exact .child hchild ih

/-- Where all that a schema names is known, nothing else is looked up. -/
theorem LooksUp.names {id : String} (h : LooksUp known id s)
    (hnames : ∀ id, s.Names id → (known id).isSome) : s.Names id := by
  induction h with
  | reference hs => exact .reference hs
  | id hs hid => exact .id hs hid
  | @child s child hs hid hchild h ih =>
    -- a schema with an id would have been found
    have hnone : s.id = none := by
      by_contra hsome
      obtain ⟨i, hi⟩ := Option.ne_none_iff_exists'.mp hsome
      have hfound := hnames i (.id hs hi)
      rw [hi, Option.bind_some] at hid
      simp [hid] at hfound
    exact .child hs hnone hchild (ih fun id h => hnames id (.child hs hnone hchild h))

/-- **Resolving.**  Layouts that are not looked up do not matter. -/
theorem resolve_congr (s : Schema) (h : ∀ id, LooksUp known id s → known id = known' id)
    (place : String) :
    resolve known s (compile known place s) = resolve known' s (compile known' place s) := by
  induction s using Schema.induction generalizing place with
  | h s ih =>
    unfold resolve
    rcases hs : s.reference with _ | r
    · have hbind : s.id.bind known = s.id.bind known' := by
        rcases hid : s.id with _ | id
        · rfl
        · exact h id (.id hs hid)
      simp only [← hbind]
      rcases hid : s.id.bind known with _ | layout
      · refine compile_congr (alikeInParts_self fun child hchild => ih child hchild ?_) place
        exact fun id hlook => h id (.child hs hid hchild hlook)
      · rfl
    · simp only [h r (.reference hs)]

/-- Compiling a schema in its place looks up what its children do. -/
theorem compile_congr_known (h : ∀ child ∈ s.children, ∀ id, LooksUp known id child →
    known id = known' id) (place : String) : compile known place s = compile known' place s :=
  compile_congr (alikeInParts_self fun child hchild => resolve_congr child (h child hchild)) place

/-- Where all that is named below a schema is known, nothing else matters. -/
theorem compile_congr_names (hknown : ∀ id, s.NamesBelow id → (known id).isSome)
    (h : ∀ id, s.NamesBelow id → known id = known' id) (place : String) :
    compile known place s = compile known' place s := by
  refine compile_congr_known (fun child hchild id hlook => h id ⟨child, hchild, ?_⟩) place
  exact hlook.names fun id hid => hknown id ⟨child, hchild, hid⟩

end Compile

end BinarySchema
