/-
# Reading back what is written

A schema that is written as a document is read back as it was, with its fields and the members of its
defaults in their order (`Schema.ofJson?_toJson`).  The schema need only be proper; since every schema
that is read is, writing and reading again gives what the first reading gave, whatever it read.

The writer leaves out the members that are missing or empty, and the reader starts from a schema in
which all of them are.  So the proof goes along the twelve members.  Reading the document of one takes
that member over from the schema that was written (`Partial.read?_memberToJson?`); a member that is left
out is missing on both sides (`adopt_of_memberToJson?_eq_none`); and a schema that has taken over all
twelve is the one that was written.
-/
import BinarySchema.Proofs.ReadSchema
import BinarySchema.Schema.Printer

namespace BinarySchema

/-! ## Names -/

@[simp] theorem SchemaMember.ofName?_name (m : SchemaMember) : ofName? m.name = some m := by
  cases m <;> decide

@[simp] theorem SchemaType.ofName?_name (t : SchemaType) : ofName? t.name = some t := by
  cases t <;> decide

@[simp] theorem BinaryType.ofName?_name (t : BinaryType) : ofName? t.name = some t := by
  cases t <;> decide

namespace Schema

open Json (Draft)

variable {s t : Schema} {m m' : SchemaMember} {members : List SchemaMember} {j : Json}

/-! ## Members -/

/-- The document of one member of a schema, unless the member is left out. -/
def memberToJson? (s : Schema) : SchemaMember → Option Json
  | .id => s.id.map .text
  | .reference => s.reference.map .text
  | .type => s.type.map fun t => .text t.name
  | .btype => s.btype.map fun t => .text t.name
  | .properties => unlessEmpty s.properties (.object (fieldsToJson s.properties))
  | .items => optionToJson s.items
  | .required => unlessEmpty s.required (.list (s.required.map .text))
  | .maxLength => s.maxLength.map fun n => .number (.natural n)
  | .maxItems => s.maxItems.map fun n => .number (.natural n)
  | .propertyNames => optionToJson s.propertyNames
  | .additionalProperties => optionToJson s.additionalProperties
  | .default => s.default

/-- The second schema with one member of the first one. -/
def adopt (s t : Schema) : SchemaMember → Schema
  | .id => { t with id := s.id }
  | .reference => { t with reference := s.reference }
  | .type => { t with type := s.type }
  | .btype => { t with btype := s.btype }
  | .properties => { t with properties := s.properties }
  | .items => { t with items := s.items }
  | .required => { t with required := s.required }
  | .maxLength => { t with maxLength := s.maxLength }
  | .maxItems => { t with maxItems := s.maxItems }
  | .propertyNames => { t with propertyNames := s.propertyNames }
  | .additionalProperties => { t with additionalProperties := s.additionalProperties }
  | .default => { t with default := s.default }

/-- The members of the document of a schema, out of the given ones. -/
def writtenMembers (s : Schema) (members : List SchemaMember) : List (String × Json) :=
  presentMembers (members.map fun m => (m, s.memberToJson? m))

theorem toJson_eq (s : Schema) : s.toJson = .object (s.writtenMembers SchemaMember.all) := by
  obtain ⟨facts, properties, items, propertyNames, additionalProperties⟩ := s
  rw [toJson]
  rfl

theorem writtenMembers_of_none (h : s.memberToJson? m = none) :
    s.writtenMembers (m :: members) = s.writtenMembers members := by
  rw [writtenMembers, presentMembers, List.map_cons, List.filterMap_cons, h]
  rfl

theorem writtenMembers_of_some (h : s.memberToJson? m = some j) :
    s.writtenMembers (m :: members) = (m.name, j) :: s.writtenMembers members := by
  rw [writtenMembers, presentMembers, List.map_cons, List.filterMap_cons, h]
  rfl

/-! ## Taking members over -/

theorem adopt_self (s : Schema) (m : SchemaMember) : s.adopt s m = s := by
  cases s
  cases m <;> rfl

theorem foldl_adopt_all (s t : Schema) : SchemaMember.all.foldl s.adopt t = s := by
  cases s
  simp only [SchemaMember.all, List.foldl, adopt]

/-- Members are taken over one without the other. -/
theorem adopt_comm (s s' t : Schema) (h : m ≠ m') :
    s.adopt (s'.adopt t m') m = s'.adopt (s.adopt t m) m' := by
  cases m <;> cases m' <;> first | rfl | exact absurd rfl h

theorem eq_nil_of_unlessEmpty {α : Type} {parts : List α} (h : unlessEmpty parts j = none) :
    parts = [] := by
  unfold unlessEmpty at h
  split_ifs at h with hempty
  exact List.isEmpty_iff.mp hempty

theorem eq_of_unlessEmpty {α : Type} {parts : List α} {j' : Json}
    (h : unlessEmpty parts j = some j') : j = j' := by
  unfold unlessEmpty at h
  split_ifs at h
  exact Option.some.inj h

theorem eq_none_of_optionToJson {part : Option Schema} (h : optionToJson part = none) :
    part = none := by
  cases part with
  | none => rfl
  | some s => cases h

/-- A member that is left out is the one of the empty schema. -/
theorem adopt_of_memberToJson?_eq_none (t : Schema) (h : s.memberToJson? m = none) :
    s.adopt t m = adopt {} t m := by
  cases m with
  | properties =>
    have hmissing : s.properties = [] := eq_nil_of_unlessEmpty h
    rw [adopt, hmissing, adopt]
  | required =>
    have hmissing : s.required = [] := eq_nil_of_unlessEmpty h
    rw [adopt, hmissing, adopt]
  | items | propertyNames | additionalProperties =>
    have hmissing := eq_none_of_optionToJson h
    rw [adopt, hmissing, adopt]
  | default =>
    have hmissing : s.default = none := h
    rw [adopt, hmissing, adopt]
  | _ =>
    have hmissing := Option.map_eq_none_iff.mp h
    rw [adopt, hmissing, adopt]

/-! ## Reading members -/

theorem texts?_texts (texts : List String) :
    (Json.list (texts.map .text)).draft.texts? none = some texts := by
  have hdrafts : (Json.drafts (texts.map .text)).mapM Draft.text? = some texts := by
    induction texts with
    | nil => rfl
    | cons text rest ih =>
      rw [List.map_cons, Json.drafts, List.mapM_cons, ih]
      rfl
  exact hdrafts

theorem readEachField?_fieldsToJson {fields : List (String × Schema)}
    (h : ∀ f ∈ fields, ofJson? f.2.toJson = some f.2) :
    readEachField? none (Json.memberDrafts (fieldsToJson fields)) = some fields := by
  induction fields with
  | nil => rfl
  | cons f rest ih =>
    have hfirst : read? none f.2.toJson.draft = some f.2 := h f List.mem_cons_self
    rw [fieldsToJson, Json.memberDrafts, readEachField?,
      ih fun f hf => h f (List.mem_cons_of_mem _ hf), hfirst]
    rfl

theorem readFields?_fieldsToJson {fields : List (String × Schema)}
    (hnames : (fields.map (·.1)).Nodup) (h : ∀ f ∈ fields, ofJson? f.2.toJson = some f.2) :
    readFields? none (Json.object (fieldsToJson fields)).draft = some fields := by
  have hself : Table.ofList fields = fields := Table.ofList_eq_self hnames
  rw [Json.draft, readFields?]
  show (readEachField? none _ >>= _) = _
  rw [readEachField?_fieldsToJson h]
  exact congrArg some hself

/-- A part of a schema is read back if its schema is. -/
theorem optional?_toJson {part : Option Schema}
    (h : ∀ s, part = some s → ofJson? s.toJson = some s) (hj : optionToJson part = some j) :
    j.draft.optional? (fun _ => read? none j.draft) = some part := by
  cases part with
  | none => cases hj
  | some s =>
    obtain rfl : s.toJson = j := Option.some.inj hj
    have hs : read? none s.toJson.draft = some s := h s rfl
    have hnull : s.toJson.draft.isNull = false := by
      rw [toJson_eq]
      rfl
    rw [Draft.optional?, hnull, hs]
    rfl

/-- **One member.**  Reading its document takes the member over. -/
theorem Partial.read?_memberToJson? (p : Partial) (hs : s.Proper)
    (hchildren : ∀ child ∈ s.children, ofJson? child.toJson = some child)
    (hj : s.memberToJson? m = some j) :
    p.read? none m j.draft (fun _ => Schema.read? none j.draft)
      (fun _ => readFields? none j.draft) = some ⟨m :: p.seen, s.adopt p.schema m⟩ := by
  obtain ⟨⟨hnames, -⟩, hdefault, -⟩ := proper_iff.mp hs
  simp only [forall_mem_children, List.forall_mem_map, Option.mem_toList] at hchildren
  obtain ⟨hfields, hitems, hkeys, hvalues⟩ := hchildren
  cases m with
  | id | reference =>
    obtain ⟨text, htext, rfl⟩ := Option.map_eq_some_iff.mp hj
    rw [adopt, htext]
    rfl
  | type =>
    obtain ⟨t, ht, rfl⟩ := Option.map_eq_some_iff.mp hj
    have hread : SchemaType.ofDraft? none (Json.text t.name).draft = some t := t.ofName?_name
    rw [read?, Draft.optional?, hread, adopt, ht]
    rfl
  | btype =>
    obtain ⟨t, ht, rfl⟩ := Option.map_eq_some_iff.mp hj
    have hread : BinaryType.ofDraft? none (Json.text t.name).draft = some t := t.ofName?_name
    rw [read?, Draft.optional?, hread, adopt, ht]
    rfl
  | maxLength | maxItems =>
    obtain ⟨n, hn, rfl⟩ := Option.map_eq_some_iff.mp hj
    rw [adopt, hn]
    rfl
  | properties =>
    obtain rfl := eq_of_unlessEmpty hj
    rw [read?, readFields?_fieldsToJson hnames hfields]
    rfl
  | required =>
    obtain rfl := eq_of_unlessEmpty hj
    rw [read?, texts?_texts]
    rfl
  | items =>
    rw [read?, optional?_toJson hitems hj]
    rfl
  | propertyNames =>
    rw [read?, optional?_toJson hkeys hj]
    rfl
  | additionalProperties =>
    rw [read?, optional?_toJson hvalues hj]
    rfl
  | default =>
    obtain ⟨hnull, hdistinct⟩ := hdefault j hj
    have hnull : j.draft.isNull = false := by
      rw [Bool.eq_false_iff, ne_eq, Json.isNull_draft]
      exact hnull
    have hread : j.draft.optional? (fun d => d.toJson? none) = some s.default := by
      rw [Draft.optional?, hnull, hdistinct.toJson?_draft]
      exact congrArg some hj.symm
    rw [read?, hread]
    rfl

/-! ## Reading schemas -/

/-- **All members.**  Reading the documents of some members takes each of them over, into a schema in
which they are still missing. -/
theorem readMembers?_writtenMembers (hs : s.Proper)
    (hchildren : ∀ child ∈ s.children, ofJson? child.toJson = some child)
    (hmembers : members.Nodup) (p : Partial) (hseen : ∀ m ∈ members, m ∉ p.seen)
    (hmissing : ∀ m ∈ members, adopt {} p.schema m = p.schema) :
    readMembers? none (Json.memberDrafts (s.writtenMembers members)) p
      = some (members.foldl s.adopt p.schema) := by
  induction members generalizing p with
  | nil => rfl
  | cons m rest ih =>
    obtain ⟨hm, hrest⟩ := List.nodup_cons.mp hmembers
    obtain ⟨hseen₁, hseen⟩ := List.forall_mem_cons.mp hseen
    obtain ⟨hmissing₁, hmissing⟩ := List.forall_mem_cons.mp hmissing
    rw [List.foldl_cons]
    cases hj : s.memberToJson? m with
    | none =>
      rw [writtenMembers_of_none hj, ih hrest p hseen hmissing,
        adopt_of_memberToJson?_eq_none p.schema hj, hmissing₁]
    | some j =>
      rw [writtenMembers_of_some hj, Json.memberDrafts, readMembers?]
      simp only [Option.bind_eq_bind, Option.bind_some, SchemaMember.ofName?_name, hseen₁, if_false,
        Partial.read?_memberToJson? p hs hchildren hj]
      refine ih hrest _ ?_ ?_
      · intro m' hm'
        rw [List.mem_cons, not_or]
        exact ⟨fun h => hm (h ▸ hm'), hseen m' hm'⟩
      · intro m' hm'
        rw [adopt_comm {} s p.schema (ne_of_mem_of_not_mem hm' hm), hmissing m' hm']

theorem Proper.reads_back (h : s.Proper) : ofJson? s.toJson = some s := by
  induction h with
  | @intro s hnames hdefault hchildren ih =>
    have hs : s.Proper := .intro hnames hdefault hchildren
    have hall : SchemaMember.all.Nodup := by decide
    have hread := readMembers?_writtenMembers hs ih hall {} (fun m _ => List.not_mem_nil)
      fun m _ => adopt_self {} m
    rw [foldl_adopt_all] at hread
    rw [toJson_eq]
    exact hread

/-- **Schemas that are written are read back.**  A proper schema is read back from its document as it
was; and writing and reading again changes nothing in a schema that was read, from whatever document. -/
theorem ofJson?_toJson : (∀ s : Schema, s.Proper → ofJson? s.toJson = some s)
    ∧ ∀ (j : Json) (s : Schema), ofJson? j = some s → ofJson? s.toJson = some s :=
  ⟨fun _ hs => hs.reads_back, fun _ _ hj => (ofJson?_proper hj).reads_back⟩

theorem ofJson?_toJson_ship :
    let ship : Schema := { id := some "Ship", type := some .object, required := ["name"], properties :=
      [("name", (Schema.string 10).withDefault (.text "-")),
        ("tags", { type := some .object, additionalProperties := some (referTo "Ship") })] }
    let fleet : Json := .object
      [("items", .list [.text "Ship", .null, .text "object", .text "map", .object
          [("tags", .object [("$ref", .null), ("default", .object [("b", .null), ("a", .list [])])])],
          .null, .list [.text "name"]]),
        ("note", .bool true), ("type", .text "array"), ("maxItems", .null)]
    (ship.Proper ∧ ofJson? ship.toJson = some ship)
      ∧ ∃ s, ofJson? fleet = some s ∧ ofJson? s.toJson = some s := by
  intro ship fleet
  have hname : ((Schema.string 10).withDefault (.text "-")).Proper :=
    .intro List.nodup_nil (by rintro _ ⟨⟩; exact ⟨nofun, .text "-"⟩) nofun
  have htag : (referTo "Ship").Proper := .intro List.nodup_nil nofun nofun
  have htags : Proper { type := some .object, additionalProperties := some (referTo "Ship") } :=
    .intro List.nodup_nil nofun (List.forall_mem_singleton.mpr htag)
  have hship : ship.Proper := .intro (by decide) nofun
    (List.forall_mem_cons.mpr ⟨hname, List.forall_mem_singleton.mpr htags⟩)
  obtain ⟨s, hs⟩ : ∃ s, ofJson? fleet = some s := Option.isSome_iff_exists.mp (by cbv)
  exact ⟨⟨hship, ofJson?_toJson.1 ship hship⟩, s, hs, ofJson?_toJson.2 fleet s hs⟩

end Schema

end BinarySchema
