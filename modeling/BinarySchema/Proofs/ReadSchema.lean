/-
# Schemas that are read are proper

Whatever document a schema is read from, the fields of each record in it have names of their own, of
two fields of one name the later one counting, and no default is `null`, which counts as missing
(`Schema.ofJson?_proper`).

The proof follows the reader.  What it has read of a schema so far is proper, and reading one more
member keeps it so (`Partial.read?_proper`).
-/
import BinarySchema.Proofs.Catalog
import BinarySchema.Proofs.Document
import BinarySchema.Schema.Reader

namespace BinarySchema

/-! ## Parts of a schema -/

namespace Schema

/-- At every depth, the fields of a record have names of their own, and a default is a document with
distinct members other than `null`. -/
inductive Proper : Schema → Prop
  | intro {s : Schema} (hnames : (s.properties.map (·.1)).Nodup)
      (hdefault : ∀ j, s.default = some j → j ≠ .null ∧ j.Distinct)
      (hchildren : ∀ child ∈ s.children, Proper child) : Proper s

theorem Proper.distinct {s : Schema} (h : s.Proper) : s.Distinct := by
  induction h with
  | intro hnames _ _ ih => exact .intro hnames ih

/-- Fields that have names of their own, each with a proper schema. -/
def ProperFields (fields : List (String × Schema)) : Prop :=
  (fields.map (·.1)).Nodup ∧ ∀ f ∈ fields, f.2.Proper

/-- A schema that is proper, if it is there. -/
def ProperPart (part : Option Schema) : Prop := ∀ s, part = some s → s.Proper

/-- A default that is proper, if it is there. -/
def ProperDefault (default : Option Json) : Prop := ∀ j, default = some j → j ≠ .null ∧ j.Distinct

theorem proper_iff {s : Schema} : s.Proper ↔ ProperFields s.properties ∧ ProperDefault s.default
    ∧ ProperPart s.items ∧ ProperPart s.propertyNames ∧ ProperPart s.additionalProperties := by
  have hchildren : (∀ child ∈ s.children, child.Proper) ↔ (∀ f ∈ s.properties, f.2.Proper)
      ∧ ProperPart s.items ∧ ProperPart s.propertyNames
      ∧ ProperPart s.additionalProperties := by
    simp only [forall_mem_children, List.forall_mem_map, Option.mem_toList, ProperPart]
  constructor
  · rintro ⟨hnames, hdefault, h⟩
    obtain ⟨hfields, hparts⟩ := hchildren.mp h
    exact ⟨⟨hnames, hfields⟩, hdefault, hparts⟩
  · rintro ⟨⟨hnames, hfields⟩, hdefault, hparts⟩
    exact .intro hnames hdefault (hchildren.mpr ⟨hfields, hparts⟩)

/-! ## Reading -/

open Json (Draft Room)

variable {room : Room} {d : Draft}

theorem properPart_of_optional? {schema? : Unit → Option Schema}
    (hschema : ProperPart (schema? ())) {part : Option Schema}
    (h : d.optional? (fun _ => schema? ()) = some part) : ProperPart part := by
  unfold Draft.optional? at h
  split_ifs at h with hnull
  · cases h
    exact fun s hs => absurd hs (by simp)
  · obtain ⟨s, hs, rfl⟩ := Option.map_eq_some_iff.mp h
    rintro _ ⟨⟩
    exact hschema s hs

theorem properDefault_of_optional? {default : Option Json}
    (h : d.optional? (fun d => d.toJson? room) = some default) : ProperDefault default := by
  unfold Draft.optional? at h
  split_ifs at h with hnull
  · cases h
    exact fun j hj => absurd hj (by simp)
  · obtain ⟨j, hread, rfl⟩ := Option.map_eq_some_iff.mp h
    rintro _ ⟨⟩
    refine ⟨?_, Draft.toJson?_distinct room d j hread⟩
    rintro rfl
    exact hnull (Draft.isNull_of_toJson? hread)

/-- Reading one member keeps a schema proper. -/
theorem Partial.read?_proper {p p' : Partial} {m : SchemaMember} {schema? : Unit → Option Schema}
    {fields? : Unit → Option (List (String × Schema))} (hp : p.schema.Proper)
    (hschema : ProperPart (schema? ()))
    (hfields : ∀ fields, fields? () = some fields → ProperFields fields)
    (h : p.read? room m d schema? fields? = some p') : p'.schema.Proper := by
  obtain ⟨hproperties, hdefault, hitems, hnames, hvalues⟩ := proper_iff.mp hp
  cases m with
  | properties =>
    obtain ⟨s, hs, ⟨⟩⟩ := Option.bind_eq_some_iff.mp h
    obtain ⟨fields, hread, rfl⟩ := Option.map_eq_some_iff.mp hs
    exact proper_iff.mpr ⟨hfields fields hread, hdefault, hitems, hnames, hvalues⟩
  | items =>
    obtain ⟨s, hs, ⟨⟩⟩ := Option.bind_eq_some_iff.mp h
    obtain ⟨part, hread, rfl⟩ := Option.map_eq_some_iff.mp hs
    exact proper_iff.mpr
      ⟨hproperties, hdefault, properPart_of_optional? hschema hread, hnames, hvalues⟩
  | propertyNames =>
    obtain ⟨s, hs, ⟨⟩⟩ := Option.bind_eq_some_iff.mp h
    obtain ⟨part, hread, rfl⟩ := Option.map_eq_some_iff.mp hs
    exact proper_iff.mpr
      ⟨hproperties, hdefault, hitems, properPart_of_optional? hschema hread, hvalues⟩
  | additionalProperties =>
    obtain ⟨s, hs, ⟨⟩⟩ := Option.bind_eq_some_iff.mp h
    obtain ⟨part, hread, rfl⟩ := Option.map_eq_some_iff.mp hs
    exact proper_iff.mpr
      ⟨hproperties, hdefault, hitems, hnames, properPart_of_optional? hschema hread⟩
  | default =>
    obtain ⟨s, hs, ⟨⟩⟩ := Option.bind_eq_some_iff.mp h
    obtain ⟨default, hread, rfl⟩ := Option.map_eq_some_iff.mp hs
    exact proper_iff.mpr
      ⟨hproperties, properDefault_of_optional? hread, hitems, hnames, hvalues⟩
  | _ =>
    -- a member that holds neither schemas nor a default
    obtain ⟨s, hs, ⟨⟩⟩ := Option.bind_eq_some_iff.mp h
    obtain ⟨x, -, rfl⟩ := Option.map_eq_some_iff.mp hs
    exact proper_iff.mpr ⟨hproperties, hdefault, hitems, hnames, hvalues⟩

theorem empty_proper : ({} : Schema).Proper := by
  rw [proper_iff]
  exact ⟨⟨List.nodup_nil, fun _ h => absurd h List.not_mem_nil⟩, fun _ h => absurd h (by simp),
    fun _ h => absurd h (by simp), fun _ h => absurd h (by simp), fun _ h => absurd h (by simp)⟩

/-- **Reading.**  A schema that is read is proper. -/
theorem read?_proper (room : Room) (d : Draft) : ProperPart (read? room d) := by
  -- along the reader: drafts of schemas, members by position, drafts of fields, each field, members
  refine read?.induct (fun room d => ProperPart (read? room d))
    (fun room items members p => p.schema.Proper →
      ProperPart (readPositions? room items members p))
    (fun room d => ∀ fields, readFields? room d = some fields → ProperFields fields)
    (fun room members => ∀ fields, readEachField? room members = some fields →
      ∀ f ∈ fields, f.2.Proper)
    (fun room members p => p.schema.Proper → ProperPart (readMembers? room members p))
    ?object ?list ?noSchema ?fields ?noFields ?positionsNil ?positionsMany ?positionsCons
    ?eachNil ?eachCons ?membersNil ?membersCons room d
  case object =>
    intro room members ih s hs
    rw [read?] at hs
    obtain ⟨inner, -, hs⟩ := Option.bind_eq_some_iff.mp hs
    exact ih inner empty_proper s hs
  case list =>
    intro room items ih s hs
    rw [read?] at hs
    obtain ⟨inner, -, hs⟩ := Option.bind_eq_some_iff.mp hs
    exact ih inner empty_proper s hs
  case noSchema =>
    intro d room hobject hlist s hs
    rw [read?] at hs
    · cases hs
    · exact hobject
    · exact hlist
  case fields =>
    intro room members ih fields hread
    unfold readFields? at hread
    obtain ⟨inner, -, hread⟩ := Option.bind_eq_some_iff.mp hread
    obtain ⟨entries, hentries, hread⟩ := Option.bind_eq_some_iff.mp hread
    cases hread
    refine ⟨Table.nodup_keys_ofList entries, ?_⟩
    exact Table.forall_insertAll (t := []) (fun _ h => absurd h List.not_mem_nil)
      (ih inner entries hentries)
  case noFields =>
    intro d room hobject fields hread
    rw [readFields?] at hread
    · cases hread
    · exact hobject
  case positionsNil =>
    intro room members p hp s hs
    unfold readPositions? at hs
    cases hs
    exact hp
  case positionsMany =>
    intro room d rest p hp s hs
    unfold readPositions? at hs
    cases hs
  case positionsCons =>
    intro room d rest member members p hschema hfields ih hp s hs
    unfold readPositions? at hs
    obtain ⟨p', hp', hs⟩ := Option.bind_eq_some_iff.mp hs
    exact ih p' (Partial.read?_proper hp hschema hfields hp') s hs
  case eachNil =>
    intro room fields hread
    unfold readEachField? at hread
    cases hread
    exact fun f hf => absurd hf List.not_mem_nil
  case eachCons =>
    intro room m rest hschema ih fields hread
    unfold readEachField? at hread
    obtain ⟨name, -, hread⟩ := Option.bind_eq_some_iff.mp hread
    obtain ⟨s, hs, hread⟩ := Option.bind_eq_some_iff.mp hread
    obtain ⟨others, hothers, hread⟩ := Option.bind_eq_some_iff.mp hread
    cases hread
    intro f hf
    rcases List.mem_cons.mp hf with rfl | hf
    · exact hschema s hs
    · exact ih others hothers f hf
  case membersNil =>
    intro room p hp s hs
    unfold readMembers? at hs
    cases hs
    exact hp
  case membersCons =>
    intro room m rest p hskip hschema hfields ih hp s hs
    unfold readMembers? at hs
    obtain ⟨name, -, hs⟩ := Option.bind_eq_some_iff.mp hs
    cases hmember : SchemaMember.ofName? name with
    | none =>
      rw [hmember] at hs
      exact hskip hp s hs
    | some member =>
      rw [hmember] at hs
      dsimp only at hs
      split_ifs at hs with hseen
      obtain ⟨p', hp', hs⟩ := Option.bind_eq_some_iff.mp hs
      exact ih p' (Partial.read?_proper hp hschema hfields hp') s hs

theorem ofJson?_proper {j : Json} {s : Schema} (h : ofJson? j = some s) : s.Proper :=
  read?_proper none j.draft s h

theorem ofJson?_distinct {j : Json} {s : Schema} (h : ofJson? j = some s) : s.Distinct :=
  (ofJson?_proper h).distinct

theorem ofText?_distinct {text : String} {s : Schema} (h : ofText? text = some s) :
    s.Distinct := by
  obtain ⟨d, -, hd⟩ := Option.bind_eq_some_iff.mp h
  exact (read?_proper Room.ofText d s hd).distinct

end Schema

/-- The layout that a reachable catalog gives for a document is a compiled one. -/
theorem Layout.IsCompiled.of_json {c c' : Catalog} (hc : c.Reachable) (document : Json) {s : Schema}
    {layout : Layout} (hs : Schema.ofJson? document = some s)
    (h : c.compile s = .ok (layout, c')) : layout.IsCompiled :=
  ⟨c, c', s, layout, hc, Schema.ofJson?_distinct hs, h, .self _⟩

/-- So is the one that a new catalog gives for it. -/
theorem Layout.IsCompiled.of_eval (settings : Settings) (document : Json) {layout : Layout}
    (h : ((Schema.ofJson? document).bind fun s =>
      ((Catalog.ofSettings settings).compile s).toOption.map (·.1)) = some layout) :
    layout.IsCompiled := by
  obtain ⟨s, hs, hlayout⟩ := Option.bind_eq_some_iff.mp h
  cases hcompile : (Catalog.ofSettings settings).compile s with
  | error e =>
    rw [hcompile] at hlayout
    cases hlayout
  | ok compiled =>
    rw [hcompile] at hlayout
    obtain rfl : compiled.1 = layout := Option.some.inj hlayout
    exact .of_json (.ofSettings settings) document hs hcompile

end BinarySchema
