/-
# Reachable catalogs

A catalog is reachable when it comes from one without layouts by compiling and encoding
(`Catalog.Reachable`).  What compiling a tree of schemas does is said once (`compileTree_eq_ok`,
`Catalog.compile_eq_ok`).  From it follows that a catalog keeps holding only layouts that satisfy what
passes from parts to the whole (`Catalog.Holds.compile`), and so that every layout that a reachable
catalog gives is well-formed, and every layout nested in it (`Layout.IsCompiled.wellFormed`).
-/
import BinarySchema.Catalog
import BinarySchema.Proofs.Dependencies

namespace BinarySchema

/-! ## Trees of schemas -/

namespace Compile

open CompileM Layout

variable {known : String → Option Layout} {U : Schema → Prop} {G : Layout → Prop}

/-- A computation that succeeds has succeeded up to each of its steps. -/
theorem exists_ok_of_bind {ε α β : Type} {x : Except ε α} {f : α → Except ε β} {b : β}
    (h : (x >>= f) = .ok b) : ∃ a, x = .ok a ∧ f a = .ok b := by
  cases x with
  | error e => cases h
  | ok a => exact ⟨a, rfl, h⟩

theorem ok_bind {ε α β : Type} (a : α) (f : α → Except ε β) : (Except.ok a >>= f) = f a := rfl

theorem exists_ok_of_map {ε α β : Type} {x : Except ε α} {f : α → β} {b : β}
    (h : x.map f = .ok b) : ∃ a, x = .ok a ∧ f a = b := by
  cases x with
  | error e => cases h
  | ok a => exact ⟨a, rfl, Except.ok.inj h⟩

theorem lookup_of_named (hknown : ∀ id layout, known id = some layout → G layout)
    {named : Table String Layout} (hnamed : ∀ e ∈ named, G e.2) (id : String)
    (layout : Layout) (h : lookup known named id = some layout) : G layout := by
  rw [lookup, Option.or_eq_some_iff] at h
  rcases h with h | ⟨-, h⟩
  · exact Table.of_find? hnamed h
  · exact hknown id layout h

/-- The nodes that come in the order get layouts, each once. -/
theorem ensures_compileNodes (hU : ∀ s, U s → ∀ child ∈ s.children, U child) (hG : PassedOn U G)
    (hknown : ∀ id layout, known id = some layout → G layout) {d : Dependencies}
    (hd : ∀ node ∈ d.nodes, U node.2) (order : List String) {named : Table String Layout}
    (hnamed : ∀ e ∈ named, G e.2) (hkeys : named.keys.Nodup) :
    Ensures G (compileNodes known d order named) fun named' => (∀ e ∈ named', G e.2)
      ∧ named'.keys.Nodup ∧ ∀ id, id ∈ named'.keys ↔ id ∈ named.keys ∨ id ∈ order ∧ id ∈ d.ids := by
  induction order generalizing named with
  | nil =>
    rw [compileNodes]
    exact Ensures.pure ⟨hnamed, hkeys, fun id => by simp⟩
  | cons id rest ih =>
    rw [compileNodes]
    split
    · next hnone =>
      have hid : id ∉ d.ids := Table.find?_eq_none_iff.mp hnone
      refine (ih hnamed hkeys).imp ?_
      rintro named' ⟨hlayouts, hnodup, hmem⟩
      refine ⟨hlayouts, hnodup, fun id' => ?_⟩
      rw [hmem, List.mem_cons]
      constructor
      · tauto
      · rintro (h | ⟨rfl | h, hnode⟩)
        · exact Or.inl h
        · exact absurd hnode hid
        · exact Or.inr ⟨h, hnode⟩
    · next s hs =>
      have hid : id ∈ d.ids := Table.isSome_find?_iff.mp (by rw [hs]; rfl)
      refine (ensures_compile hU hG (lookup_of_named hknown hnamed) s
        (Table.of_find? hd hs) id).bind ?_
      intro layout hlayout
      refine (ih (Table.forall_insert hnamed hlayout id)
        (Table.nodup_keys_insert hkeys id layout)).imp ?_
      rintro named' ⟨hlayouts, hnodup, hmem⟩
      refine ⟨hlayouts, hnodup, fun id' => ?_⟩
      rw [hmem, Table.mem_keys_insert, List.mem_cons]
      constructor
      · rintro ((h | rfl) | ⟨h, hnode⟩)
        · exact Or.inl h
        · exact Or.inr ⟨Or.inl rfl, hid⟩
        · exact Or.inr ⟨Or.inr h, hnode⟩
      · tauto

/-- Of any nodes, those that come in the order are named. -/
theorem ensures_compileNodesAny (known : String → Option Layout) (d : Dependencies)
    (order : List String) : Ensures (fun _ => True) (compileNodes known d order []) fun named =>
      named.keys.Nodup ∧ ∀ id, id ∈ named.keys ↔ id ∈ order ∧ id ∈ d.ids := by
  have hnone : Table.keys ([] : Table String Layout) = [] := rfl
  refine (ensures_compileNodes (U := fun _ => True) (fun _ _ _ _ => True.intro)
    (fun _ _ _ _ _ _ => True.intro) (fun _ _ _ => True.intro) (fun _ _ => True.intro) order
    (fun _ _ => True.intro) (by rw [hnone]; exact List.nodup_nil)).imp ?_
  rintro named ⟨-, hnodup, hmem⟩
  refine ⟨hnodup, fun id => ?_⟩
  rw [hmem, hnone]
  exact or_iff_right List.not_mem_nil

/-- The root of a tree is compiled like any schema in it, once its nodes have layouts. -/
theorem ensures_root (hU : ∀ s, U s → ∀ child ∈ s.children, U child) (hG : PassedOn U G)
    (hknown : ∀ id layout, known id = some layout → G layout) {root : Schema} (hroot : U root)
    (place : String) : Ensures G (resolve known root (compile known place root)) G :=
  ensures_resolve hknown (ensures_compile hU hG hknown root hroot place)

/-- Of any root it holds that claims that were made before do not matter. -/
theorem ensures_rootAny (known : String → Option Layout) (root : Schema) :
    Ensures (fun _ => True)
      (resolve known root (compile known (root.id.getD "<root>") root)) fun _ => True :=
  ensures_root (U := fun _ => True) (fun _ _ _ _ => True.intro) (fun _ _ _ _ _ _ => True.intro)
    (fun _ _ _ => True.intro) True.intro _

/-- What compiling a tree does: it finds an order of the nodes, gives each a layout, and then
compiles the root by these layouts.  The tags claimed in the root come last. -/
theorem compileTree_eq_ok {root : Schema} {compiled : Compiled} :
    compileTree known root = .ok compiled ↔ ∃ d order nodeTags rootTags,
      Dependencies.ofSchema (fun id => (known id).isSome) root = .ok d ∧ d.order = .ok order
        ∧ (compileNodes known d order []).run [] = .ok (compiled.named, nodeTags)
        ∧ (resolve (lookup known compiled.named) root
            (compile (lookup known compiled.named) (root.id.getD "<root>") root)).run []
          = .ok (compiled.root, rootTags)
        ∧ compiled.tags = nodeTags ++ rootTags := by
  have hframed := fun named : Table String Layout =>
    (ensures_rootAny (lookup known named) root).framed
  constructor
  · intro h
    unfold compileTree at h
    obtain ⟨d, hd, h⟩ := exists_ok_of_bind h
    obtain ⟨order, horder, h⟩ := exists_ok_of_bind h
    obtain ⟨⟨⟨layout, named⟩, tags⟩, hrun, h⟩ := exists_ok_of_bind h
    cases h
    rw [StateT.run_bind] at hrun
    obtain ⟨⟨named', nodeTags⟩, hnamed, hrun⟩ := exists_ok_of_bind hrun
    rw [StateT.run_bind] at hrun
    obtain ⟨⟨layout', tags'⟩, hroot, hrun⟩ := exists_ok_of_bind hrun
    cases hrun
    rw [hframed] at hroot
    obtain ⟨⟨layout', rootTags⟩, hresolved, htags⟩ := exists_ok_of_map hroot
    cases htags
    exact ⟨d, order, nodeTags, rootTags, hd, horder, hnamed, hresolved, rfl⟩
  · rintro ⟨d, order, nodeTags, rootTags, hd, horder, hnamed, hroot, htags⟩
    obtain ⟨layout, named, tags⟩ := compiled
    dsimp only at hnamed hroot htags
    have hbuild : StateT.run (do
        let named ← compileNodes known d order []
        let layout ← resolve (lookup known named) root
          (compile (lookup known named) (root.id.getD "<root>") root)
        return (layout, named) : CompileM (Layout × Table String Layout)) []
        = .ok ((layout, named), tags) := by
      rw [StateT.run_bind, hnamed]
      show StateT.run (resolve (lookup known named) root
        (compile (lookup known named) (root.id.getD "<root>") root) >>= fun layout =>
          pure (layout, named)) nodeTags = _
      rw [StateT.run_bind, hframed, hroot, htags]
      rfl
    unfold compileTree
    rw [hd, ok_bind, horder, ok_bind]
    dsimp only
    rw [hbuild]
    rfl

end Compile

/-! ## Catalogs -/

namespace Catalog

/-- The catalogs that come from one without layouts by compiling and encoding. -/
inductive Reachable : Catalog → Prop
  | ofSettings (s : Settings) : Reachable (.ofSettings s)
  | compile {c c' : Catalog} {s : Schema} {layout : Layout} (hc : Reachable c)
      (hs : s.Distinct) (h : c.compile s = .ok (layout, c')) : Reachable c'
  | encodeWith {c : Catalog} (layout : Layout) (v : Value) (hc : Reachable c) :
      Reachable (c.encodeWith layout v).2

variable {c c' : Catalog} {U : Schema → Prop} {G : Layout → Prop}

/-- What compiling does to a catalog: nothing where the schema has the name of a layout, and else
the layouts and tags of the tree are inserted. -/
theorem compile_eq_ok {s : Schema} {layout : Layout} : c.compile s = .ok (layout, c') ↔
    (s.id.bind c.byId? = some layout ∧ c' = c)
    ∨ s.id.bind c.byId? = none ∧ ∃ compiled, Compile.compileTree c.byId? s = .ok compiled
      ∧ layout = compiled.root ∧ c' = { c with
          named := c.named.insertAll compiled.named
          tagged := c.tagged.insertAll compiled.tags } := by
  unfold compile
  cases hid : s.id.bind c.byId? with
  | some found =>
    constructor
    · intro h
      cases h
      exact Or.inl ⟨rfl, rfl⟩
    · rintro (⟨h, rfl⟩ | ⟨h, -⟩)
      · cases h
        rfl
      · cases h
  | none =>
    constructor
    · intro h
      obtain ⟨compiled, hcompiled, h⟩ := Compile.exists_ok_of_bind h
      cases h
      exact Or.inr ⟨rfl, compiled, hcompiled, rfl, rfl⟩
    · rintro (⟨h, -⟩ | ⟨-, compiled, hcompiled, rfl, rfl⟩)
      · cases h
      · dsimp only
        rw [hcompiled]
        rfl

/-- Every layout that the catalog has under a name or a tag satisfies `G`. -/
def Holds (G : Layout → Prop) (c : Catalog) : Prop :=
  (∀ e ∈ c.named, G e.2) ∧ ∀ e ∈ c.tagged, G e.2

theorem holds_ofSettings (G : Layout → Prop) (settings : Settings) : Holds G (.ofSettings settings) :=
  ⟨fun _ he => absurd he List.not_mem_nil, fun _ he => absurd he List.not_mem_nil⟩

/-- Compiling gives a layout, and keeps a catalog of layouts, that satisfy what passes from parts to
the whole. -/
theorem Holds.compile (hc : c.Holds G) (hU : ∀ s, U s → ∀ child ∈ s.children, U child)
    (hG : Layout.PassedOn U G) {s : Schema} (hs : U s) {layout : Layout}
    (h : c.compile s = .ok (layout, c')) : G layout ∧ c'.Holds G := by
  have hknown : ∀ id layout, c.byId? id = some layout → G layout :=
    fun id layout hid => Table.of_find? hc.1 hid
  rcases compile_eq_ok.mp h with ⟨hfound, rfl⟩ | ⟨-, compiled, hcompiled, rfl, rfl⟩
  · obtain ⟨id, -, hid⟩ := Option.bind_eq_some_iff.mp hfound
    exact ⟨hknown id layout hid, hc⟩
  · obtain ⟨d, order, nodeTags, rootTags, hd, -, hnodes, hroot, htags⟩ :=
      Compile.compileTree_eq_ok.mp hcompiled
    obtain ⟨⟨hnamed, -⟩, hnodeTags⟩ := (Compile.ensures_compileNodes hU hG hknown
      (Dependencies.ofSchema_nodes hU hs hd) order (fun e he => absurd he List.not_mem_nil)
      List.nodup_nil).result _ _ hnodes
    obtain ⟨hlayout, hrootTags⟩ := (Compile.ensures_root hU hG
      (Compile.lookup_of_named hknown hnamed) hs _).result _ _ hroot
    refine ⟨hlayout, Table.forall_insertAll hc.1 hnamed, Table.forall_insertAll hc.2 ?_⟩
    rw [htags]
    exact List.forall_mem_append.mpr
      ⟨fun e he => (hnodeTags e he).1, fun e he => (hrootTags e he).1⟩

/-- **Reachable catalogs.**  Every layout that has a name or a tag satisfies what passes from parts
to the whole. -/
theorem Reachable.holds (hc : c.Reachable) (hG : Layout.PassedOn Schema.Distinct G) :
    c.Holds G := by
  induction hc with
  | ofSettings s => exact holds_ofSettings _ s
  | compile hc hs h ih => exact (ih.compile (fun _ hs => hs.children) hG hs h).2
  | encodeWith layout v hc ih => exact ih

end Catalog

/-! ## Layouts of parts -/

namespace Layout

/-- The layouts that occur in a layout, itself included. -/
inductive Within : Layout → Layout → Prop
  | self (layout : Layout) : Within layout layout
  | array {part item : Layout} {stride capacity : Nat} (h : Within part item) :
      Within part (.array item stride capacity)
  | vector {part item : Layout} {limit : Option Nat} (h : Within part item) :
      Within part (.vector item limit)
  | key {part key value : Layout} {keyLength : Nat} (h : Within part key) :
      Within part (.dict key keyLength value)
  | value {part key value : Layout} {keyLength : Nat} (h : Within part value) :
      Within part (.dict key keyLength value)
  | object {part : Layout} {fields : List (Field Layout)} {f : Field Layout} (hf : f ∈ fields)
      (h : Within part f.layout) : Within part (.object fields)
  | map {part : Layout} {fields : List (Field Layout)} {f : Field Layout} (hf : f ∈ fields)
      (h : Within part f.layout) : Within part (.map fields)

/-- What is nested in a nested layout is nested in the whole. -/
theorem Within.trans {inner part whole : Layout} (hinner : Within inner part)
    (h : Within part whole) : Within inner whole := by
  induction h with
  | self => exact hinner
  | array _ ih => exact .array ih
  | vector _ ih => exact .vector ih
  | key _ ih => exact .key ih
  | value _ ih => exact .value ih
  | object hf _ ih => exact .object hf ih
  | map hf _ ih => exact .map hf ih

theorem WellFormed.within {part whole : Layout} (hwhole : whole.WellFormed)
    (h : Within part whole) : part.WellFormed := by
  induction h with
  | self => exact hwhole
  | array h ih =>
    cases hwhole with
    | array _ hitem _ => exact ih hitem
  | vector h ih =>
    cases hwhole with
    | vector _ hitem => exact ih hitem
  | key h ih =>
    cases hwhole with
    | dict hkey _ _ => exact ih hkey
  | value h ih =>
    cases hwhole with
    | dict _ _ hvalue => exact ih hvalue
  | object hf h ih =>
    cases hwhole with
    | object hparts _ _ _ => exact ih (hparts _ hf)
  | map hf h ih =>
    cases hwhole with
    | map hparts _ _ => exact ih (hparts _ hf)

/-- The layouts that a reachable catalog gives for schemas, and those nested in them. -/
def IsCompiled (layout : Layout) : Prop :=
  ∃ (c c' : Catalog) (s : Schema) (root : Layout), c.Reachable ∧ s.Distinct
    ∧ c.compile s = .ok (root, c') ∧ Within layout root

/-- A compiled layout is nested in one that satisfies what passes from parts to the whole. -/
theorem IsCompiled.exists_root {layout : Layout} (h : layout.IsCompiled) {G : Layout → Prop}
    (hG : PassedOn Schema.Distinct G) : ∃ root, G root ∧ Within layout root := by
  obtain ⟨c, c', s, root, hc, hs, hcompile, hwithin⟩ := h
  exact ⟨root, ((hc.holds hG).compile (fun _ hs => hs.children) hG hs hcompile).1, hwithin⟩

/-- **Compiled layouts.**  Every layout that a reachable catalog gives is well-formed, and so are
those nested in it. -/
theorem IsCompiled.wellFormed {layout : Layout} (h : layout.IsCompiled) : layout.WellFormed := by
  obtain ⟨root, hroot, hwithin⟩ := h.exists_root passedOn_wellFormed
  exact hroot.within hwithin

end Layout

end BinarySchema
