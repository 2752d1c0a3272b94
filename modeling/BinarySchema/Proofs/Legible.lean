/-
# Legible values

Where a layout expects a text, a value that is none leaves the place empty, except that a blob is
stored there as it is, and then need not read as any text.  A value is `Legible` for a layout if it
gives no blob to a text of the layout, and only such texts as satisfy a given condition.

Values of documents have no blobs (`Value.ofJson_ne_blob`), so they are legible for all layouts, and
with them the defaults in layouts that have been compiled (`IsCompiled.defaultsRead`).
-/
import BinarySchema.Proofs.Regular

namespace BinarySchema

/-! ## Documents -/

namespace Value

theorem exists_ofJson_of_mem_ofItems {items : List Json} {x : Value} (h : x ∈ ofItems items) :
    ∃ j, x = ofJson j := by
  induction items with
  | nil => exact absurd h List.not_mem_nil
  | cons j rest ih =>
    rcases List.mem_cons.mp (show x ∈ ofJson j :: ofItems rest from h) with rfl | h
    · exact ⟨j, rfl⟩
    · exact ih h

theorem exists_ofJson_of_mem_ofMembers {members : List (String × Json)} {e : String × Value}
    (h : e ∈ ofMembers members) : ∃ j, e.2 = ofJson j := by
  induction members with
  | nil => exact absurd h List.not_mem_nil
  | cons m rest ih =>
    rcases List.mem_cons.mp (show e ∈ (m.1, ofJson m.2) :: ofMembers rest from h) with rfl | h
    · exact ⟨m.2, rfl⟩
    · exact ih h

/-- A number is neither a list nor a record, nor is it a blob. -/
theorem ofNumber_leaf (n : Json.Number) :
    (ofNumber n).items = [] ∧ (ofNumber n).fields = [] ∧ ∀ b, ofNumber n ≠ .blob b := by
  cases n with
  | natural n =>
    rw [ofNumber]
    split_ifs <;> exact ⟨rfl, rfl, fun b h => by cases h⟩
  | negative n => exact ⟨rfl, rfl, fun b h => by cases h⟩
  | float x => exact ⟨rfl, rfl, fun b h => by cases h⟩

/-- The items of a document are documents. -/
theorem exists_ofJson_of_mem_items {j : Json} {x : Value} (h : x ∈ (ofJson j).items) :
    ∃ j', x = ofJson j' := by
  cases j with
  | list items =>
    rw [ofJson] at h
    exact exists_ofJson_of_mem_ofItems h
  | number n =>
    rw [ofJson, (ofNumber_leaf n).1] at h
    exact absurd h List.not_mem_nil
  | _ =>
    rw [ofJson] at h
    exact absurd h List.not_mem_nil

/-- The members of a document are documents. -/
theorem exists_ofJson_of_mem_fields {j : Json} {e : String × Value} (h : e ∈ (ofJson j).fields) :
    ∃ j', e.2 = ofJson j' := by
  cases j with
  | object members =>
    rw [ofJson] at h
    rcases mem_setAll (show e ∈ setAll (ofMembers members) [] from h) with h | h
    · exact exists_ofJson_of_mem_ofMembers h
    · exact absurd h List.not_mem_nil
  | number n =>
    rw [ofJson, (ofNumber_leaf n).2.1] at h
    exact absurd h List.not_mem_nil
  | _ =>
    rw [ofJson] at h
    exact absurd h List.not_mem_nil

/-- No document is a blob. -/
theorem ofJson_ne_blob (j : Json) (b : Bytes) : ofJson j ≠ .blob b := by
  cases j with
  | number n =>
    rw [ofJson]
    exact (ofNumber_leaf n).2.2 b
  | _ =>
    rw [ofJson]
    exact fun h => by cases h

end Value

namespace Layout

/-! ## Legible values -/

/-- The value gives no blob to a text of the layout, and only texts that satisfy `p`. -/
inductive Legible (p : String → Prop) : Layout → Value → Prop
  | primitive {q : Primitive} {v : Value} : Legible p (.primitive q) v
  | text {cap : Option Nat} {v : Value} (hblob : ∀ b, v ≠ .blob b)
      (htext : ∀ s, v = .text s → p s) : Legible p (.text cap) v
  | blob {cap : Option Nat} {v : Value} : Legible p (.blob cap) v
  | array {item : Layout} {stride capacity : Nat} {v : Value}
      (hitems : ∀ i ∈ v.items.take capacity, Legible p item i) :
      Legible p (.array item stride capacity) v
  | packed {q : Primitive} {capacity : Nat} {v : Value} : Legible p (.packed q capacity) v
  | vector {item : Layout} {limit : Option Nat} {v : Value}
      (hitems : ∀ i ∈ admitted limit v.items, Legible p item i) : Legible p (.vector item limit) v
  | dict {key value : Layout} {keyLength : Nat} {v : Value}
      (hvalues : ∀ e ∈ v.fields, Legible p value e.2) : Legible p (.dict key keyLength value) v
  | object {fields : List (Field Layout)} {v : Value}
      (hparts : ∀ f ∈ fields, ∀ x, v.get? f.name = some x → Legible p f.layout x) :
      Legible p (.object fields) v
  | map {fields : List (Field Layout)} {v : Value}
      (hparts : ∀ f ∈ fields, ∀ x, v.get? f.name = some x → Legible p f.layout x) :
      Legible p (.map fields) v

variable {p : String → Prop} {layout : Layout} {v : Value}

/-- A legible value stores a text where one is expected, if only the empty one. -/
theorem Legible.exists_utf8 {cap : Option Nat} (h : Legible p (.text cap) v) (hempty : p "") :
    ∃ s, v.bytes = Text.utf8 s ∧ p s := by
  cases h with
  | text hblob htext =>
    cases v with
    | text s => exact ⟨s, rfl, htext s rfl⟩
    | blob b => exact absurd rfl (hblob b)
    | _ => exact ⟨"", rfl, hempty⟩

/-- A condition that is weaker admits the value as well. -/
theorem Legible.mono {q : String → Prop} (h : Legible p layout v) (hpq : ∀ s, p s → q s) :
    Legible q layout v := by
  induction h with
  | primitive => exact .primitive
  | text hblob htext => exact .text hblob fun s hs => hpq s (htext s hs)
  | blob => exact .blob
  | array _ ih => exact .array ih
  | packed => exact .packed
  | vector _ ih => exact .vector ih
  | dict _ ih => exact .dict ih
  | object _ ih => exact .object ih
  | map _ ih => exact .map ih

/-- The fields of a legible record are legible. -/
theorem Legible.field (h : Legible p layout v) {fields : List (Field Layout)}
    (hfields : layout.fields? = some fields) {f : Field Layout} (hf : f ∈ fields) {x : Value}
    (hx : v.get? f.name = some x) : Legible p f.layout x := by
  cases h with
  | object hparts =>
    cases hfields
    exact hparts f hf x hx
  | map hparts =>
    cases hfields
    exact hparts f hf x hx
  | _ => cases hfields

/-- A document is legible. -/
theorem WellFormed.legible_ofJson (hwf : layout.WellFormed) (j : Json) :
    Legible (fun _ => True) layout (Value.ofJson j) := by
  have hfield : ∀ (j : Json) {name : String} {x : Value}, (Value.ofJson j).get? name = some x →
      ∃ j', x = Value.ofJson j' := fun j _ _ hx =>
    Value.exists_ofJson_of_mem_fields (Value.mem_fields_of_get? hx)
  induction hwf generalizing j with
  | primitive p => exact .primitive
  | text cap => exact .text (Value.ofJson_ne_blob j) fun _ _ => True.intro
  | blob cap => exact .blob
  | array capacity hitem hstride ih =>
    refine .array fun i hi => ?_
    obtain ⟨j', rfl⟩ := Value.exists_ofJson_of_mem_items (List.mem_of_mem_take hi)
    exact ih j'
  | packed p capacity => exact .packed
  | vector limit hitem ih =>
    refine .vector fun i hi => ?_
    obtain ⟨j', rfl⟩ := Value.exists_ofJson_of_mem_items (mem_of_mem_admitted hi)
    exact ih j'
  | dict hkey hlength hvalue ihkey ihvalue =>
    refine .dict fun e he => ?_
    obtain ⟨j', hj⟩ := Value.exists_ofJson_of_mem_fields he
    rw [hj]
    exact ihvalue j'
  | object hparts harranged hfixed hnames ih =>
    refine .object fun f hf x hx => ?_
    obtain ⟨j', rfl⟩ := hfield j hx
    exact ih f hf j'
  | map hparts harranged hnames ih =>
    refine .map fun f hf x hx => ?_
    obtain ⟨j', rfl⟩ := hfield j hx
    exact ih f hf j'

/-! ## Defaults -/

/-- In a compiled layout, and in all layouts nested in it, the defaults have been read from
documents. -/
theorem IsCompiled.defaultsRead (h : layout.IsCompiled) {part : Layout}
    (hpart : Within part layout) : part.DefaultsRead := by
  have hG : PassedOn Schema.Distinct fun layout => ∀ part, Within part layout → part.DefaultsRead :=
    fun _ _ _ _ hread hparts => forall_within hread.2 hparts
  obtain ⟨root, hroot, hwithin⟩ := h.exists_root hG
  exact hroot part (hpart.trans hwithin)

end Layout

end BinarySchema
