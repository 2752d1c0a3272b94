/-
# Inlining a schema and referring to it

A named schema may stand where it is needed, or elsewhere with a reference to it in its place
(`Schema.Replaced`).  Compiling it first and the rest with the reference afterwards gives the same
layouts as compiling the whole at once (`Catalog.compile_replaced`).

Both ways have the same nodes, as far as they are not those of the part (`Schema.SplitsNodes`), and
these name the same ids and compile alike.  So the ids stand for the same layouts
(`Compile.stands_replaced`), whatever the order in which either way compiles them.
-/
import BinarySchema.Proofs.Resolution

namespace BinarySchema

namespace Schema

/-! ## Named schemas in a schema -/

/-- The schemas with an id in a schema, itself included, that lie below no reference, in the order of
a walk. -/
def nodes (s : Schema) : Table String Schema :=
  let below := s.children.attach.flatMap fun child => nodes child.1
  match s.reference, s.id with
  | some _, _ => []
  | none, none => below
  | none, some id => (id, s) :: below
termination_by sizeOf s
decreasing_by exact sizeOf_lt_of_mem_children child.2

variable {n r c c' s s' : Schema} {i : String}

theorem nodes_of_reference (hs : s.reference = some i) : s.nodes = [] := by
  rw [nodes, hs]

theorem nodes_of_anonymous (hs : s.reference = none) (hid : s.id = none) :
    s.nodes = s.children.flatMap nodes := by
  rw [nodes, hs, hid]
  simp [List.flatMap_subtype]

theorem nodes_of_id (hs : s.reference = none) (hid : s.id = some i) :
    s.nodes = (i, s) :: s.children.flatMap nodes := by
  rw [nodes, hs, hid]
  simp [List.flatMap_subtype]

/-! ## One part for another -/

/-- The second schema is the first one with a part in the place of another. -/
inductive WithPart (c c' : Schema) : Schema → Schema → Prop
  | property {s : Schema} {name : String} {before after : List (String × Schema)}
      (h : s.properties = before ++ (name, c) :: after) :
      WithPart c c' s { s with properties := before ++ (name, c') :: after }
  | items {s : Schema} (h : s.items = some c) : WithPart c c' s { s with items := some c' }
  | propertyNames {s : Schema} (h : s.propertyNames = some c) :
      WithPart c c' s { s with propertyNames := some c' }
  | additionalProperties {s : Schema} (h : s.additionalProperties = some c) :
      WithPart c c' s { s with additionalProperties := some c' }

theorem WithPart.facts (h : WithPart c c' s s') : s'.toSchemaFacts = s.toSchemaFacts := by
  cases h <;> rfl

theorem WithPart.reference (h : WithPart c c' s s') : s'.reference = s.reference := by
  cases h <;> rfl

theorem WithPart.id (h : WithPart c c' s s') : s'.id = s.id := by
  cases h <;> rfl

/-- The part is a child, and the other children stay. -/
theorem WithPart.children (h : WithPart c c' s s') : ∃ before after,
    s.children = before ++ c :: after ∧ s'.children = before ++ c' :: after := by
  cases h with
  | @property name before after h =>
    refine ⟨before.map (·.2), after.map (·.2) ++ s.items.toList ++ s.propertyNames.toList
      ++ s.additionalProperties.toList, ?_, ?_⟩ <;> simp [Schema.children, h]
  | items h =>
    refine ⟨s.properties.map (·.2), s.propertyNames.toList ++ s.additionalProperties.toList,
      ?_, ?_⟩ <;> simp [Schema.children, h]
  | propertyNames h =>
    refine ⟨s.properties.map (·.2) ++ s.items.toList, s.additionalProperties.toList,
      ?_, ?_⟩ <;> simp [Schema.children, h]
  | additionalProperties h =>
    refine ⟨s.properties.map (·.2) ++ s.items.toList ++ s.propertyNames.toList, [],
      ?_, ?_⟩ <;> simp [Schema.children, h]

/-- The second schema is the first one with a schema that occurs in it, below no reference, replaced
in one place. -/
inductive Replaced (n r : Schema) : Schema → Schema → Prop
  | here : Replaced n r n r
  | inside {c c' s s' : Schema} (hs : s.reference = none) (hpart : WithPart c c' s s')
      (h : Replaced n r c c') : Replaced n r s s'

/-- The schemas are the same, up to what is replaced below them. -/
def Similar (n r s s' : Schema) : Prop :=
  s = s' ∨ s.reference = none ∧ ∃ c c', WithPart c c' s s' ∧ Replaced n r c c'

/-- The nodes of the whole are those of the part and, up to similarity, those of the rest. -/
structure Splits (n r : Schema) (part whole rest : Table String Schema) : Prop where
  keys : whole.keys.Perm (part.keys ++ rest.keys)
  ofPart : ∀ e ∈ part, e ∈ whole
  ofWhole : ∀ e ∈ whole, e ∈ part ∨ ∃ t, (e.1, t) ∈ rest ∧ Similar n r e.2 t
  ofRest : ∀ e ∈ rest, ∃ t, (e.1, t) ∈ whole ∧ Similar n r t e.2

variable {part whole rest : Table String Schema}

theorem Splits.cons (h : Splits n r part whole rest) (hs : Similar n r s s') (i : String) :
    Splits n r part ((i, s) :: whole) ((i, s') :: rest) where
  keys := (h.keys.cons i).trans List.perm_middle.symm
  ofPart e he := List.mem_cons_of_mem _ (h.ofPart e he)
  ofWhole e he := by
    rcases List.mem_cons.mp he with rfl | he
    · exact Or.inr ⟨s', List.mem_cons_self, hs⟩
    · refine (h.ofWhole e he).imp_right ?_
      rintro ⟨t, ht, hsimilar⟩
      exact ⟨t, List.mem_cons_of_mem _ ht, hsimilar⟩
  ofRest e he := by
    rcases List.mem_cons.mp he with rfl | he
    · exact ⟨s, List.mem_cons_self, hs⟩
    · obtain ⟨t, ht, hsimilar⟩ := h.ofRest e he
      exact ⟨t, List.mem_cons_of_mem _ ht, hsimilar⟩

/-- Nodes before the part stay as they are. -/
theorem Splits.append_left (h : Splits n r part whole rest) (before : Table String Schema) :
    Splits n r part (before ++ whole) (before ++ rest) := by
  induction before with
  | nil => exact h
  | cons e before ih => exact ih.cons (Or.inl rfl) e.1

/-- Nodes behind the part stay as they are. -/
theorem Splits.append_right (h : Splits n r part whole rest) (after : Table String Schema) :
    Splits n r part (whole ++ after) (rest ++ after) where
  keys := by
    simp only [Table.keys, List.map_append]
    rw [← List.append_assoc]
    exact h.keys.append_right _
  ofPart e he := List.mem_append_left _ (h.ofPart e he)
  ofWhole e he := by
    rcases List.mem_append.mp he with he | he
    · refine (h.ofWhole e he).imp_right ?_
      rintro ⟨t, ht, hsimilar⟩
      exact ⟨t, List.mem_append_left _ ht, hsimilar⟩
    · exact Or.inr ⟨e.2, List.mem_append_right _ he, Or.inl rfl⟩
  ofRest e he := by
    rcases List.mem_append.mp he with he | he
    · obtain ⟨t, ht, hsimilar⟩ := h.ofRest e he
      exact ⟨t, List.mem_append_left _ ht, hsimilar⟩
    · exact ⟨e.2, List.mem_append_right _ he, Or.inl rfl⟩

/-- **Nodes.**  Where a schema is replaced by one without nodes, what is lost is its nodes. -/
theorem Replaced.splits (h : Replaced n r s s') (hr : r.nodes = []) :
    Splits n r n.nodes s.nodes s'.nodes := by
  induction h with
  | here =>
    rw [hr]
    exact ⟨by simp [Table.keys], fun e he => he, fun e he => Or.inl he,
      fun e he => absurd he List.not_mem_nil⟩
  | @inside c c' s s' hs hpart h ih =>
    obtain ⟨before, after, hchildren, hchildren'⟩ := hpart.children
    have hsplit : Splits n r n.nodes (s.children.flatMap nodes) (s'.children.flatMap nodes) := by
      simp only [hchildren, hchildren', List.flatMap_append, List.flatMap_cons]
      exact (ih.append_right _).append_left _
    have hs' : s'.reference = none := by rw [hpart.reference, hs]
    rcases hid : s.id with _ | i
    · rw [nodes_of_anonymous hs hid, nodes_of_anonymous hs' (by rw [hpart.id, hid])]
      exact hsplit
    · rw [nodes_of_id hs hid, nodes_of_id hs' (by rw [hpart.id, hid])]
      exact hsplit.cons (Or.inr ⟨hs, c, c', hpart, h⟩) i

/-! ## References for schemas -/

/-- The schema can be referred to where it stands: it has an id, is no reference itself, and has
nothing that counts for it as a field only. -/
structure Referable (n : Schema) (i : String) : Prop where
  id : n.id = some i
  reference : n.reference = none
  default : n.default = none
  maxLength : n.maxLength = none

/-- A reference for a schema names the same. -/
theorem Replaced.names (hn : n.Referable i) (h : Replaced n (.referTo i) s s') (m : String) :
    s.Names m ↔ s'.Names m := by
  induction h with
  | here => rw [names_of_id hn.reference hn.id, names_of_reference rfl]
  | @inside c c' s s' hs hpart h ih =>
    have hs' : s'.reference = none := by rw [hpart.reference, hs]
    rcases hid : s.id with _ | j
    · rw [names_of_anonymous hs hid, names_of_anonymous hs' (by rw [hpart.id, hid])]
      obtain ⟨before, after, hchildren, hchildren'⟩ := hpart.children
      simp only [NamesBelow, hchildren, hchildren', List.mem_append, List.mem_cons, or_and_right,
        exists_or, exists_eq_left, ih]
    · rw [names_of_id hs hid, names_of_id hs' (by rw [hpart.id, hid])]

theorem Similar.namesBelow (hn : n.Referable i) (h : Similar n (.referTo i) s s') (m : String) :
    s.NamesBelow m ↔ s'.NamesBelow m := by
  rcases h with rfl | ⟨hs, c, c', hpart, h⟩
  · rfl
  · obtain ⟨before, after, hchildren, hchildren'⟩ := hpart.children
    simp only [NamesBelow, hchildren, hchildren', List.mem_append, List.mem_cons, or_and_right,
      exists_or, exists_eq_left, h.names hn m]

end Schema

namespace Compile

open Schema (Replaced Similar Splits Referable)

variable {n c c' s s' : Schema} {i : String} {known known' : String → Option Layout}

/-! ## Compiling with a reference instead -/

theorem Alike.refl (known : String → Option Layout) (s : Schema) : Alike known known s s :=
  ⟨fun _ => rfl, rfl, rfl⟩

/-- A part that is like another can stand in its place. -/
theorem alikeInParts_withPart (hpart : Schema.WithPart c c' s s') (h : Alike known known c c') :
    AlikeInParts known known s s' := by
  have hproperties : ∀ properties : List (String × Schema),
      List.Forall₂ (fun f f' => f.1 = f'.1 ∧ Alike known known f.2 f'.2) properties properties :=
    fun properties => List.forall₂_same.mpr fun f _ => ⟨rfl, .refl known f.2⟩
  have hoption : ∀ part : Option Schema, Option.Rel (Alike known known) part part := by
    rintro (_ | part)
    · exact .none
    · exact .some (.refl known part)
  cases hpart with
  | @property name before after hs =>
    refine ⟨rfl, ?_, hoption _, hoption _, hoption _⟩
    rw [hs]
    exact List.rel_append (hproperties before) (.cons ⟨rfl, h⟩ (hproperties after))
  | items hs => exact ⟨rfl, hproperties _, by rw [hs]; exact .some h, hoption _, hoption _⟩
  | propertyNames hs => exact ⟨rfl, hproperties _, hoption _, by rw [hs]; exact .some h, hoption _⟩
  | additionalProperties hs =>
    exact ⟨rfl, hproperties _, hoption _, hoption _, by rw [hs]; exact .some h⟩

/-- Where the id has a layout, a reference for the schema is like it. -/
theorem alike_replaced (hn : n.Referable i) (hi : (known i).isSome)
    (h : Replaced n (.referTo i) s s') : Alike known known s s' := by
  induction h with
  | here =>
    obtain ⟨layout, hlayout⟩ := Option.isSome_iff_exists.mp hi
    refine ⟨fun place => ?_, hn.default, hn.maxLength⟩
    simp [resolve, hn.reference, hn.id, hlayout, Schema.referTo]
  | @inside c c' s s' hs hpart h ih =>
    have hfacts := hpart.facts
    refine ⟨fun place => ?_, ?_, ?_⟩
    · rw [resolve, resolve, hpart.reference, hpart.id,
        compile_congr (alikeInParts_withPart hpart ih)]
    · rw [hfacts]
    · rw [hfacts]

/-- Where the id has a layout, similar schemas compile alike. -/
theorem compile_similar (hn : n.Referable i) (hi : (known i).isSome)
    (h : Similar n (.referTo i) s s') (place : String) :
    compile known place s = compile known place s' := by
  rcases h with rfl | ⟨hs, c, c', hpart, h⟩
  · rfl
  · exact compile_congr (alikeInParts_withPart hpart (alike_replaced hn hi h)) place

/-! ## What the ids stand for -/

/-- Where all ids are new, a walk notes the nodes of the schema. -/
theorem nodes_walk_fresh {known : String → Bool} (s : Schema) : ∀ owner (d : Dependencies),
    (d.ids ++ s.nodes.keys).Nodup → (∀ id ∈ s.nodes.keys, ¬ known id) →
      (Dependencies.walk known owner s d).nodes = d.nodes ++ s.nodes := by
  have hall : ∀ schemas : List Schema, (∀ s ∈ schemas, ∀ owner (d : Dependencies),
      (d.ids ++ s.nodes.keys).Nodup → (∀ id ∈ s.nodes.keys, ¬ known id) →
        (Dependencies.walk known owner s d).nodes = d.nodes ++ s.nodes) → ∀ owner (d : Dependencies),
      (d.ids ++ Table.keys (schemas.flatMap Schema.nodes)).Nodup →
      (∀ id ∈ Table.keys (schemas.flatMap Schema.nodes), ¬ known id) →
        (Dependencies.walkAll known owner schemas d).nodes
          = d.nodes ++ schemas.flatMap Schema.nodes := by
    intro schemas h
    induction schemas with
    | nil => simp [Dependencies.walkAll]
    | cons s rest ih =>
      intro owner d hnodup hnew
      rw [List.flatMap_cons, Table.keys, List.map_append, ← List.append_assoc] at hnodup
      rw [List.flatMap_cons, Table.keys, List.map_append, List.forall_mem_append] at hnew
      have hfirst := h s List.mem_cons_self owner d (List.nodup_append'.mp hnodup).1 hnew.1
      have hids : (Dependencies.walk known owner s d).ids = d.ids ++ s.nodes.keys := by
        rw [Dependencies.ids, hfirst, Table.keys, List.map_append]
        rfl
      have hrest := ih (fun s hs => h s (List.mem_cons_of_mem _ hs)) owner
        (Dependencies.walk known owner s d) (by rw [hids]; exact hnodup) hnew.2
      rw [List.flatMap_cons, ← List.append_assoc, ← hfirst]
      exact hrest
  induction s using Dependencies.walk_induction with
  | reference s r hs =>
    intro owner d _ _
    rw [Dependencies.walk_reference hs, Dependencies.nodes_addReference, Schema.nodes_of_reference hs,
      List.append_nil]
  | anonymous s hs hid ih =>
    intro owner d hnodup hnew
    rw [Schema.nodes_of_anonymous hs hid] at hnodup hnew ⊢
    rw [Dependencies.walk_anonymous hs hid]
    exact hall _ ih owner d hnodup hnew
  | named s i hs hid ih =>
    intro owner d hnodup hnew
    rw [Schema.nodes_of_id hs hid, Table.keys_cons] at hnodup hnew
    obtain ⟨hi, hnew⟩ := List.forall_mem_cons.mp hnew
    have hfirst : i ∉ d.ids := fun hmem =>
      List.disjoint_of_nodup_append hnodup hmem List.mem_cons_self
    rw [Dependencies.walk_new hs hid hi hfirst, Schema.nodes_of_id hs hid]
    have hrest := hall _ ih (some i) ((d.addEdge owner i).addNode i s)
      (by
        rw [Dependencies.ids_addNode, Dependencies.ids_addEdge, ← List.append_cons]
        exact hnodup)
      hnew
    rw [hrest, Dependencies.addNode, Dependencies.nodes_addEdge, ← List.append_cons]

theorem treeNodes_eq (hkeys : s.nodes.keys.Nodup) (hnew : ∀ id ∈ s.nodes.keys, known id = none) :
    treeNodes known s = s.nodes := by
  rw [treeNodes, nodes_walk_fresh s none {} hkeys fun id hid => by simp [hnew id hid]]
  rfl

variable {part whole rest : Table String Schema} {layout : Layout}

/-- With a reference in the place of a part, the nodes that are left are new where the whole was. -/
theorem unknown_rest (h : Splits n (.referTo i) part whole rest) (hkeys : whole.keys.Nodup)
    (hnew : ∀ id ∈ whole.keys, known id = none)
    (hknown : ∀ id l, known' id = some l ↔ Stands known part id l) :
    ∀ id ∈ rest.keys, known' id = none := by
  intro id hid
  rw [Option.eq_none_iff_forall_ne_some]
  intro l hl
  rcases (hknown id l).mp hl with hold | ⟨-, -, hs, -, -⟩
  · rw [hnew id (h.keys.mem_iff.mpr (List.mem_append_right _ hid))] at hold
    cases hold
  · have hboth : (part.keys ++ rest.keys).Nodup := h.keys.nodup_iff.mp hkeys
    have hpart : id ∈ part.keys := Table.isSome_find?_iff.mp (by rw [hs]; rfl)
    exact List.disjoint_of_nodup_append hboth hpart hid

/-- **Inlining.**  Where the layouts of the nodes of a part are known, with a reference in its place
the ids stand for the same layouts as in the whole. -/
theorem stands_replaced (hn : n.Referable i) (h : Splits n (.referTo i) part whole rest)
    (hkeys : whole.keys.Nodup) (hnew : ∀ id ∈ whole.keys, known id = none)
    (hpart : ∀ id ∈ part.keys, ∃ l, Stands known part id l)
    (hknown : ∀ id l, known' id = some l ↔ Stands known part id l) (id : String) (layout : Layout) :
    Stands known whole id layout ↔ Stands known' rest id layout := by
  have hboth : (part.keys ++ rest.keys).Nodup := h.keys.nodup_iff.mp hkeys
  obtain ⟨hpartKeys, hrestKeys, -⟩ := List.nodup_append'.mp hboth
  have hofPart : ∀ id l, Stands known part id l → Stands known whole id l := by
    intro id l hl
    refine hl.mono fun id s hs => ?_
    rw [Table.find?_eq_some_iff hkeys]
    exact h.ofPart _ ((Table.find?_eq_some_iff hpartKeys).mp hs)
  constructor
  · intro hstands
    induction hstands with
    | known hid => exact .known ((hknown _ _).mpr (.known hid))
    | @node id s layout tags lay hid hs hbelow hrun ih =>
      rcases h.ofWhole _ ((Table.find?_eq_some_iff hkeys).mp hs) with hmem | ⟨t, ht, hsimilar⟩
      · -- a node of the part is known by now
        obtain ⟨l, hl⟩ := hpart id (List.mem_map.mpr ⟨_, hmem, rfl⟩)
        obtain rfl := (hofPart id l hl).unique _ (.node lay hid hs hbelow hrun)
        exact .known ((hknown id l).mpr hl)
      · rw [compile_similar hn rfl hsimilar] at hrun
        exact .node lay (unknown_rest h hkeys hnew hknown id (List.mem_map.mpr ⟨_, ht, rfl⟩))
          ((Table.find?_eq_some_iff hrestKeys).mpr ht)
          (fun m hm => ih m ((hsimilar.namesBelow hn m).mpr hm)) hrun
  · intro hstands
    induction hstands with
    | known hid => exact hofPart _ _ ((hknown _ _).mp hid)
    | @node id t layout tags lay hid ht hbelow hrun ih =>
      obtain ⟨s, hs, hsimilar⟩ := h.ofRest _ ((Table.find?_eq_some_iff hrestKeys).mp ht)
      rw [← compile_similar hn rfl hsimilar] at hrun
      exact .node lay (hnew id (List.mem_map.mpr ⟨_, hs, rfl⟩))
        ((Table.find?_eq_some_iff hkeys).mpr hs)
        (fun m hm => ih m ((hsimilar.namesBelow hn m).mp hm)) hrun

/-- The root yields the same layout. -/
theorem yields_replaced (hn : n.Referable i) (h : Replaced n (.referTo i) s s')
    (hstands : ∀ id l, Stands known s.nodes id l ↔ Stands known' s'.nodes id l) (layout : Layout) :
    Yields known s.nodes (s.id.getD "<root>") s layout
      ↔ Yields known' s'.nodes (s'.id.getD "<root>") s' layout := by
  cases h with
  | here => rw [yields_of_id hn.reference hn.id, yields_of_reference rfl, hstands]
  | inside hs hpart h =>
    have hinside : Replaced n (.referTo i) s s' := .inside hs hpart h
    have halike : ∀ lay : String → Layout,
        Alike (fun m => some (lay m)) (fun m => some (lay m)) s s' :=
      fun lay => alike_replaced hn rfl hinside
    have hresolve := fun lay => (halike lay).resolve
    simp only [Yields, hpart.id, hresolve, hinside.names hn, hstands]

end Compile

/-! ## Catalogs -/

namespace Catalog

open Compile
open Schema (Replaced Referable)

variable {c c' : Catalog} {n s s' : Schema} {i : String} {layout : Layout}

/-- A schema whose nodes are all new has no known id, or is a reference. -/
theorem bind_byId?_eq_none (hs : s.reference = none) (hnew : ∀ id ∈ s.nodes.keys, c.byId? id = none) :
    s.id.bind c.byId? = none := by
  rcases hid : s.id with _ | j
  · rfl
  · refine hnew j ?_
    rw [Schema.nodes_of_id hs hid]
    exact List.mem_cons_self

/-- **Inlining and referring.**  In a schema in which no id is defined twice or known, a named schema
may be replaced by a reference, if it is compiled before: the rest compiles just if the whole does,
to the same layout, and the same layouts have names afterwards. -/
theorem compile_replaced (hn : n.Referable i) (h : Replaced n (.referTo i) s s')
    (hkeys : s.nodes.keys.Nodup) (hnew : ∀ id ∈ s.nodes.keys, c.byId? id = none)
    (hcompile : c.compile n = .ok (layout, c')) :
    ((∃ l₁ c₁, c.compile s = .ok (l₁, c₁)) ↔ ∃ l₂ c₂, c'.compile s' = .ok (l₂, c₂))
    ∧ ∀ l₁ c₁ l₂ c₂, c.compile s = .ok (l₁, c₁) → c'.compile s' = .ok (l₂, c₂) →
      l₁ = l₂ ∧ ∀ id, c₁.byId? id = c₂.byId? id := by
  have hsplits := h.splits (Schema.nodes_of_reference rfl)
  have hmem : ∀ id, id ∈ s.nodes.keys ↔ id ∈ n.nodes.keys ∨ id ∈ s'.nodes.keys := fun id =>
    hsplits.keys.mem_iff.trans List.mem_append
  obtain ⟨hkeysN, hkeys', -⟩ := List.nodup_append'.mp (hsplits.keys.nodup_iff.mp hkeys)
  -- what compiling the part leaves
  have hnewN : ∀ id ∈ n.nodes.keys, c.byId? id = none :=
    fun id hid => hnew id ((hmem id).mpr (Or.inl hid))
  obtain ⟨hknown, hpart, -⟩ := compile_stands (bind_byId?_eq_none hn.reference hnewN) hcompile
  rw [treeNodes_eq hkeysN hnewN] at hknown hpart
  have hnew' : ∀ id ∈ s'.nodes.keys, c'.byId? id = none := unknown_rest hsplits hkeys hnew hknown
  have hstands := stands_replaced hn hsplits hkeys hnew hpart hknown
  have hyields := yields_replaced hn h hstands
  -- neither root has a known id
  have hroot : s.id.bind c.byId? = none := by
    refine bind_byId?_eq_none ?_ hnew
    cases h with
    | here => exact hn.reference
    | inside hs _ _ => exact hs
  have hroot' : s'.id.bind c'.byId? = none := by
    cases h with
    | here => rfl
    | inside hs hpart _ => exact bind_byId?_eq_none (by rw [hpart.reference, hs]) hnew'
  have htree := treeNodes_eq hkeys hnew
  have htree' := treeNodes_eq hkeys' hnew'
  constructor
  · constructor
    · rintro ⟨l₁, c₁, h₁⟩
      have hyields₁ := (compile_stands hroot h₁).2.2
      rw [htree, hyields, ← htree'] at hyields₁
      exact exists_compile hroot' hyields₁
    · rintro ⟨l₂, c₂, h₂⟩
      have hyields₂ := (compile_stands hroot' h₂).2.2
      rw [htree', ← hyields, ← htree] at hyields₂
      exact exists_compile hroot hyields₂
  · intro l₁ c₁ l₂ c₂ h₁ h₂
    obtain ⟨hfound₁, -, hyields₁⟩ := compile_stands hroot h₁
    obtain ⟨hfound₂, -, hyields₂⟩ := compile_stands hroot' h₂
    rw [htree] at hfound₁ hyields₁
    rw [htree'] at hfound₂ hyields₂
    refine ⟨((hyields l₁).mp hyields₁).unique hyields₂, fun id => Option.ext fun l => ?_⟩
    rw [hfound₁, hfound₂, hstands]

/-- The items of a list, to which a field refers as well. -/
theorem compile_replaced_items :
    let n : Schema := { Schema.scalar .integer .uint8 with id := some "N" }
    let list (items : Schema) : Schema :=
      { type := some .array, btype := some .vector, items := some items }
    let record (items : Schema) : Schema :=
      { id := some "R", type := some .object, btype := some .map
        properties := [("all", list items), ("first", .referTo "N")] }
    let c : Catalog := .ofSettings ⟨0⟩
    ∃ c' layout c₁ c₂, c.compile n = .ok (.primitive .uint8, c')
      ∧ c.compile (record n) = .ok (layout, c₁)
      ∧ c'.compile (record (.referTo "N")) = .ok (layout, c₂)
      ∧ ∀ id, c₁.byId? id = c₂.byId? id := by
  intro n list record c
  have hitems : n.nodes.keys = ["N"] := by
    rw [Schema.nodes_of_id rfl rfl]
    rfl
  have hlist : (list n).nodes.keys = ["N"] := by
    rw [Schema.nodes_of_anonymous rfl rfl]
    simpa [list, Schema.children] using hitems
  have hkeys : (record n).nodes.keys = ["R", "N"] := by
    have hreference : (Schema.referTo "N").nodes = [] := Schema.nodes_of_reference rfl
    rw [Schema.nodes_of_id rfl rfl]
    show "R" :: Table.keys ((list n).nodes ++ ((Schema.referTo "N").nodes ++ [])) = _
    rw [hreference, List.append_nil, List.append_nil, hlist]
  have hproperties : (record n).properties
      = [] ++ ("all", list n) :: [("first", .referTo "N")] := rfl
  have hreplaced : Schema.Replaced n (.referTo "N") (record n) (record (.referTo "N")) :=
    .inside rfl (.property hproperties) (.inside rfl (.items rfl) .here)
  obtain ⟨hiff, hsame⟩ := compile_replaced ⟨rfl, rfl, rfl, rfl⟩ hreplaced
    (by rw [hkeys]; decide) (fun id _ => rfl) (c := c) rfl
  obtain ⟨l₂, c₂, h₂⟩ := hiff.mp ⟨_, _, rfl⟩
  obtain ⟨rfl, hfound⟩ := hsame _ _ _ _ rfl h₂
  exact ⟨_, _, _, c₂, rfl, rfl, h₂, hfound⟩

end Catalog

end BinarySchema
