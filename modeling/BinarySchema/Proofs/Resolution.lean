/-
# What an id stands for

An id stands for a layout (`Compile.Stands`) if it is known under it, or if it is the id of a node that
compiles to it by the layouts that the ids named below it stand for.  This says nothing about an
order: that a node waits for those it depends on is that a derivation is finite.

Compiling a tree is this relation computed.  Where it succeeds, an id is found under a layout just if
it stands for it (`Compile.compileTree_stands`); and it succeeds wherever the root yields a layout
(`Compile.exists_compileTree`), since whatever is noted in the tree is named on the way to that.
-/
import BinarySchema.Proofs.Order
import BinarySchema.Proofs.Submission

namespace BinarySchema

namespace Compile

open CompileM

variable {known full : String → Option Layout} {nodes nodes' : Table String Schema} {s : Schema}
  {id place : String} {layout layout' : Layout}

/-- By the layouts that are known, and the nodes of a tree, the id stands for the layout. -/
inductive Stands (known : String → Option Layout) (nodes : Table String Schema) :
    String → Layout → Prop
  | known {id : String} {layout : Layout} (h : known id = some layout) :
      Stands known nodes id layout
  | node {id : String} {s : Schema} {layout : Layout} {tags : TagClaims} (lay : String → Layout)
      (hid : known id = none) (hs : nodes.find? id = some s)
      (hbelow : ∀ m, s.NamesBelow m → Stands known nodes m (lay m))
      (h : (compile (fun m => some (lay m)) id s).run [] = .ok (layout, tags)) :
      Stands known nodes id layout

/-- By the layouts that the ids which it names stand for, the schema yields the layout. -/
def Yields (known : String → Option Layout) (nodes : Table String Schema) (place : String)
    (s : Schema) (layout : Layout) : Prop :=
  ∃ (lay : String → Layout) (tags : TagClaims), (∀ m, s.Names m → Stands known nodes m (lay m))
    ∧ (resolve (fun m => some (lay m)) s (compile (fun m => some (lay m)) place s)).run []
      = .ok (layout, tags)

/-! ## The relation is functional -/

/-- Where the ids named in a schema have layouts, nothing else matters. -/
theorem resolve_congr_names (hknown : ∀ m, s.Names m → (known m).isSome)
    (h : ∀ m, s.Names m → known m = full m) :
    resolve known s (compile known place s) = resolve full s (compile full place s) :=
  resolve_congr s (fun m hlook => h m (hlook.names hknown)) place

/-- An id stands for one layout at most. -/
theorem Stands.unique (h : Stands known nodes id layout) :
    ∀ layout', Stands known nodes id layout' → layout = layout' := by
  induction h with
  | known h =>
    rintro layout' (h' | ⟨lay', hid', -, -, -⟩)
    · exact Option.some.inj (h.symm.trans h')
    · rw [h] at hid'
      cases hid'
  | @node id s layout tags lay hid hs hbelow h ih =>
    rintro layout' (h' | ⟨lay', -, hs', hbelow', h'⟩)
    · rw [hid] at h'
      cases h'
    · obtain rfl := Option.some.inj (hs.symm.trans hs')
      have hsame : compile (fun m => some (lay m)) id s = compile (fun m => some (lay' m)) id s :=
        compile_congr_names (fun m _ => rfl) (fun m hm => by rw [ih m hm _ (hbelow' m hm)]) id
      rw [hsame, h'] at h
      cases h
      rfl

/-- The layouts that ids stand for, as a function. -/
theorem exists_layouts {P : String → Prop}
    (h : ∀ m, P m → ∃ l, full m = some l ∧ Stands known nodes m l) : ∃ lay : String → Layout,
      (∀ m, P m → some (lay m) = full m) ∧ ∀ m, P m → Stands known nodes m (lay m) := by
  refine ⟨fun m => (full m).getD default, fun m hm => ?_, fun m hm => ?_⟩
  all_goals
    obtain ⟨l, hl, hstands⟩ := h m hm
    simp [hl, hstands]

/-- **One node.**  A node stands for what it compiles to once the ids named below it are found. -/
theorem stands_iff (hid : known id = none) (hs : nodes.find? id = some s)
    (h : ∀ m, s.NamesBelow m → ∃ l, full m = some l ∧ Stands known nodes m l) :
    Stands known nodes id layout ↔ ∃ tags, (compile full id s).run [] = .ok (layout, tags) := by
  constructor
  · rintro (h' | ⟨lay, -, hs', hbelow, hrun⟩)
    · rw [hid] at h'
      cases h'
    · obtain rfl := Option.some.inj (hs.symm.trans hs')
      have hsame : compile (fun m => some (lay m)) id s = compile full id s := by
        refine compile_congr_names (fun m _ => rfl) (fun m hm => ?_) id
        obtain ⟨l, hl, hstands⟩ := h m hm
        rw [hl, hstands.unique _ (hbelow m hm)]
      exact ⟨_, hsame ▸ hrun⟩
  · rintro ⟨tags, hrun⟩
    obtain ⟨lay, hlay, hbelow⟩ := exists_layouts h
    have hsame : compile (fun m => some (lay m)) id s = compile full id s :=
      compile_congr_names (fun m _ => rfl) hlay id
    exact .node lay hid hs hbelow (hsame ▸ hrun)

/-- The same for the schema that a tree begins with. -/
theorem yields_iff (h : ∀ m, s.Names m → ∃ l, full m = some l ∧ Stands known nodes m l) :
    Yields known nodes place s layout ↔
      ∃ tags, (resolve full s (compile full place s)).run [] = .ok (layout, tags) := by
  constructor
  · rintro ⟨lay, tags, hnames, hrun⟩
    have hsame : resolve (fun m => some (lay m)) s (compile (fun m => some (lay m)) place s)
        = resolve full s (compile full place s) := by
      refine resolve_congr_names (fun m _ => rfl) fun m hm => ?_
      obtain ⟨l, hl, hstands⟩ := h m hm
      rw [hl, hstands.unique _ (hnames m hm)]
    exact ⟨tags, hsame ▸ hrun⟩
  · rintro ⟨tags, hrun⟩
    obtain ⟨lay, hlay, hnames⟩ := exists_layouts h
    have hsame : resolve (fun m => some (lay m)) s (compile (fun m => some (lay m)) place s)
        = resolve full s (compile full place s) := resolve_congr_names (fun m _ => rfl) hlay
    exact ⟨lay, tags, hnames, hsame ▸ hrun⟩

theorem Yields.unique (h : Yields known nodes place s layout)
    (h' : Yields known nodes place s layout') : layout = layout' := by
  obtain ⟨lay, tags, hnames, hrun⟩ := h
  obtain ⟨tags', hrun'⟩ := (yields_iff fun m hm => ⟨lay m, rfl, hnames m hm⟩).mp h'
  rw [hrun] at hrun'
  cases hrun'
  rfl

/-- A reference yields what it stands for. -/
theorem yields_of_reference {r : String} (hs : s.reference = some r) :
    Yields known nodes place s layout ↔ Stands known nodes r layout := by
  constructor
  · rintro ⟨lay, tags, hnames, hrun⟩
    rw [resolve, hs] at hrun
    cases hrun
    exact hnames r (.reference hs)
  · intro h
    refine ⟨fun _ => layout, [], fun m hm => ?_, ?_⟩
    · rw [(Schema.names_of_reference hs).mp hm]
      exact h
    · rw [resolve, hs]
      rfl

/-- A schema with an id yields what that stands for. -/
theorem yields_of_id {i : String} (hs : s.reference = none) (hid : s.id = some i) :
    Yields known nodes place s layout ↔ Stands known nodes i layout := by
  constructor
  · rintro ⟨lay, tags, hnames, hrun⟩
    rw [resolve, hs, hid] at hrun
    cases hrun
    exact hnames i (.id hs hid)
  · intro h
    refine ⟨fun _ => layout, [], fun m hm => ?_, ?_⟩
    · rw [(Schema.names_of_id hs hid).mp hm]
      exact h
    · rw [resolve, hs, hid]
      rfl

/-- What is named below a node that stands for a layout stands for one. -/
theorem Stands.exists_below (h : Stands known nodes id layout) (hid : known id = none)
    (hs : nodes.find? id = some s) : ∀ m, s.NamesBelow m → ∃ l, Stands known nodes m l := by
  rcases h with h | ⟨lay, -, hs', hbelow, -⟩
  · rw [hid] at h
    cases h
  · obtain rfl := Option.some.inj (hs.symm.trans hs')
    exact fun m hm => ⟨lay m, hbelow m hm⟩

/-- More nodes change nothing about what an id stands for. -/
theorem Stands.mono (h : Stands known nodes id layout)
    (hnodes : ∀ id s, nodes.find? id = some s → nodes'.find? id = some s) :
    Stands known nodes' id layout := by
  induction h with
  | known h => exact .known h
  | node lay hid hs hbelow h ih => exact .node lay hid (hnodes _ _ hs) ih h

/-! ## Nodes in their order -/

/-- No node is known, and what is named below one is a node that it depends on, or known. -/
def Complete (known : String → Option Layout) (d : Dependencies) : Prop :=
  ∀ id s, d.nodes.find? id = some s → known id = none
    ∧ ∀ m, s.NamesBelow m → m ∈ d.ids ∧ d.dependsOn id m ∨ (known m).isSome

/-- The layouts so far are those that ids stand for, and those that are done have one. -/
structure Built (known : String → Option Layout) (d : Dependencies) (done : List String)
    (named : Table String Layout) : Prop where
  stands (id : String) (layout : Layout) :
    named.find? id = some layout → Stands known d.nodes id layout
  all (id : String) : id ∈ done → id ∈ named.keys

variable {d : Dependencies} {done : List String} {named : Table String Layout}

/-- What is done or known is found. -/
theorem Built.found (h : Built known d done named) {m : String}
    (hm : m ∈ done ∨ (known m).isSome) :
    ∃ l, lookup known named m = some l ∧ Stands known d.nodes m l := by
  rcases hfind : named.find? m with _ | l
  · have hknown := hm.resolve_left fun hdone => Table.find?_eq_none_iff.mp hfind (h.all m hdone)
    obtain ⟨l, hl⟩ := Option.isSome_iff_exists.mp hknown
    exact ⟨l, by rw [lookup, hfind, Option.none_or, hl], .known hl⟩
  · exact ⟨l, by rw [lookup, hfind, Option.some_or], h.stands m l hfind⟩

/-- Whatever is named below a node that is ready is done or known. -/
theorem Complete.found (hd : Complete known d) (h : Built known d done named)
    (hs : d.nodes.find? id = some s) (hready : d.isReady done id) {m : String}
    (hm : s.NamesBelow m) : ∃ l, lookup known named m = some l ∧ Stands known d.nodes m l := by
  refine h.found (((hd id s hs).2 m hm).imp_left ?_)
  rintro ⟨hnode, hdep⟩
  exact Dependencies.isReady_iff.mp hready m hnode hdep

theorem Built.insert (h : Built known d done named) (hid : Stands known d.nodes id layout) :
    Built known d (done ++ [id]) (named.insert id layout) where
  stands id' layout' hfind := by
    rw [Table.find?_insert] at hfind
    split_ifs at hfind with heq
    · rw [eq_of_beq heq, ← Option.some.inj hfind]
      exact hid
    · exact h.stands id' layout' hfind
  all id' hid' := by
    rw [Table.mem_keys_insert]
    rcases List.mem_append.mp hid' with hid' | hid'
    · exact Or.inl (h.all id' hid')
    · exact Or.inr (List.mem_singleton.mp hid')

/-- Claims that were made before do not matter to a node. -/
theorem compile_framed (known : String → Option Layout) (place : String) (s : Schema)
    (claims : TagClaims) : (compile known place s).run claims
      = ((compile known place s).run []).map fun r => (r.1, claims ++ r.2) :=
  (ensures_compile (G := fun _ => True) (U := fun _ => True) (fun _ _ _ _ => True.intro)
    (fun _ _ _ _ _ _ => True.intro) (fun _ _ _ => True.intro) s True.intro place).framed claims

/-- **Nodes in their order.**  Compiling nodes that are ready one after the other gives them the
layouts that they stand for, and succeeds if each of them stands for one. -/
theorem compileNodes_stands (hd : Complete known d) (rest : List String)
    (hrest : ∀ id ∈ rest, id ∈ d.ids) (h : Built known d done named)
    (hready : ∀ earlier id later, rest = earlier ++ id :: later → d.isReady (done ++ earlier) id)
    (claims : TagClaims) :
    (∀ named' claims', (compileNodes known d rest named).run claims = .ok (named', claims') →
      Built known d (done ++ rest) named')
    ∧ ((∀ id ∈ rest, ∃ layout, Stands known d.nodes id layout) →
      ∃ r, (compileNodes known d rest named).run claims = .ok r) := by
  induction rest generalizing done named claims with
  | nil =>
    constructor
    · intro named' claims' hrun
      cases hrun
      rw [List.append_nil]
      exact h
    · exact fun _ => ⟨_, rfl⟩
  | cons id rest ih =>
    obtain ⟨s, hs⟩ : ∃ s, d.nodes.find? id = some s :=
      Option.isSome_iff_exists.mp (Table.isSome_find?_iff.mpr (hrest id List.mem_cons_self))
    have hfirst : d.isReady done id := by
      have hfirst := hready [] id rest rfl
      rw [List.append_nil] at hfirst
      exact hfirst
    have hlater : ∀ earlier id' later, rest = earlier ++ id' :: later →
        d.isReady (done ++ [id] ++ earlier) id' := by
      intro earlier id' later heq
      rw [List.append_assoc]
      exact hready (id :: earlier) id' later (by rw [heq, List.cons_append])
    have hiff : ∀ layout, Stands known d.nodes id layout ↔
        ∃ tags, (compile (lookup known named) id s).run [] = .ok (layout, tags) :=
      fun layout => stands_iff (hd id s hs).1 hs fun m hm => hd.found h hs hfirst hm
    have hnext := fun layout (hstands : Stands known d.nodes id layout) claims =>
      ih (fun id' hid' => hrest id' (List.mem_cons_of_mem _ hid')) (h.insert hstands) hlater claims
    have hsplit : (compileNodes known d (id :: rest) named).run claims
        = ((compile (lookup known named) id s).run []).map (fun r => (r.1, claims ++ r.2)) >>=
          fun r => (compileNodes known d rest (named.insert id r.1)).run r.2 := by
      rw [← compile_framed, compileNodes, hs]
      exact StateT.run_bind _ _ _
    rw [hsplit, List.append_cons]
    constructor
    · intro named' claims' hrun
      obtain ⟨⟨layout, claims''⟩, hmap, hrun⟩ := exists_ok_of_bind hrun
      obtain ⟨⟨layout', tags⟩, hcompile, heq⟩ := exists_ok_of_map hmap
      obtain ⟨rfl, rfl⟩ := Prod.mk.inj heq
      exact (hnext _ ((hiff _).mpr ⟨tags, hcompile⟩) _).1 named' claims' hrun
    · intro hall
      obtain ⟨layout, hstands⟩ := hall id List.mem_cons_self
      obtain ⟨tags, hcompile⟩ := (hiff layout).mp hstands
      rw [hcompile]
      exact (hnext layout hstands _).2 fun id' hid' => hall id' (List.mem_cons_of_mem _ hid')

/-! ## Trees -/

/-- The nodes that a walk from the root notes. -/
def treeNodes (known : String → Option Layout) (root : Schema) : Table String Schema :=
  (Dependencies.walk (fun id => (known id).isSome) none root {}).nodes

variable {root : Schema}

theorem treeNodes_fresh (known : String → Option Layout) (root : Schema) :
    (treeNodes known root).keys.Nodup ∧ ∀ id ∈ (treeNodes known root).keys, known id = none := by
  obtain ⟨found, hfound, hmeets⟩ : ∃ found, (treeNodes known root).keys = [] ++ found
      ∧ Dependencies.Meets (fun id => (known id).isSome) [] [root] (found ++ []) :=
    Dependencies.meets_walk root none {} [] [] .done
  obtain ⟨hnodup, hnew⟩ := hmeets.fresh
  rw [List.append_nil] at hnodup hnew
  rw [hfound, List.nil_append]
  refine ⟨hnodup, fun id hid => ?_⟩
  have hnone := (hnew id hid).1
  rw [Option.not_isSome_iff_eq_none] at hnone
  exact hnone

theorem known_eq_none (hs : (treeNodes known root).find? id = some s) : known id = none :=
  (treeNodes_fresh known root).2 id (Table.isSome_find?_iff.mp (by rw [hs]; rfl))

/-- Where each reference leads somewhere, the tree is complete, and what its root names is a node or
known. -/
theorem complete_walk (hd : Dependencies.ofSchema (fun id => (known id).isSome) root = .ok d) :
    Complete known d ∧ ∀ m, root.Names m → m ∈ d.ids ∨ (known m).isSome := by
  obtain ⟨rfl, hreferences⟩ := Dependencies.ofSchema_eq_ok.mp hd
  set d := Dependencies.walk (fun id => (known id).isSome) none root {} with hwalk
  have hclosed : Dependencies.Closed (fun id => (known id).isSome) d :=
    Dependencies.closed_walk root none {} fun e he => absurd he List.not_mem_nil
  refine ⟨fun id s hs => ⟨known_eq_none hs, fun m hm => ?_⟩, fun m hm => ?_⟩
  · have hdep : d.dependsOn id m := Dependencies.dependsOn_walk.mpr
      ⟨s, (Table.find?_eq_some_iff (treeNodes_fresh known root).1).mp hs, hm⟩
    rcases hclosed (id, m) (Dependencies.dependsOn_iff.mp hdep) with h | h | h
    · exact Or.inl ⟨h, hdep⟩
    · exact (hreferences m h).imp_left fun h => ⟨h, hdep⟩
    · exact Or.inr h
  · have hcovers : Dependencies.Covers (fun id => d.ids.contains id || (known id).isSome) d := by
      constructor
      · intro id hid
        simp [hid]
      · intro id hid
        simpa using hreferences id hid
    have hsettled : Dependencies.Settled (fun id => d.ids.contains id || (known id).isSome) root :=
      Dependencies.settled_walk (fun id hid => by simp [hid]) root none {} hcovers
    simpa using hsettled.names hm

/-- Compiling the nodes of a tree in their order, from none on. -/
theorem compileNodes_settled (hd : Complete known d) (hids : d.ids.Nodup) :
    (∀ named claims, (compileNodes known d d.settled []).run [] = .ok (named, claims) →
      Built known d d.settled named)
    ∧ ((∀ id ∈ d.ids, ∃ layout, Stands known d.nodes id layout) →
      ∃ r, (compileNodes known d d.settled []).run [] = .ok r) := by
  have hsettled := Dependencies.drained_settled hids
  have hmem : ∀ id ∈ d.settled, id ∈ d.ids :=
    fun id hid => ((Dependencies.mem_settled_iff hids).mp hid).1
  have hnone : Built known d [] [] := by
    constructor
    · intro id layout h
      cases h
    · exact fun id hid => absurd hid List.not_mem_nil
  obtain ⟨hbuilt, hall⟩ := compileNodes_stands hd d.settled hmem hnone
    (fun earlier id later heq => hsettled.ordered earlier later id heq) []
  exact ⟨hbuilt, fun h => hall fun id hid => h id (hmem id hid)⟩

/-- **Compiling is resolving.**  After a tree has been compiled, an id is found under a layout just if
it stands for it, as each node does, and the root has yielded its layout. -/
theorem compileTree_stands {compiled : Compiled} (h : compileTree known root = .ok compiled) :
    (∀ id layout, lookup known compiled.named id = some layout ↔
      Stands known (treeNodes known root) id layout)
    ∧ (∀ id ∈ (treeNodes known root).keys, ∃ layout, Stands known (treeNodes known root) id layout)
    ∧ Yields known (treeNodes known root) (root.id.getD "<root>") root compiled.root := by
  obtain ⟨d, order, nodeTags, rootTags, hd, horder, hnodes, hroot, -⟩ := compileTree_eq_ok.mp h
  obtain ⟨hcomplete, hnames⟩ := complete_walk hd
  obtain ⟨rfl, hall⟩ := Dependencies.order_eq_ok_iff.mp horder
  have hd' : d.nodes = treeNodes known root := by rw [(Dependencies.ofSchema_eq_ok.mp hd).1, treeNodes]
  have hids : d.ids.Nodup := by
    rw [Dependencies.ids, hd']
    exact (treeNodes_fresh known root).1
  have hbuilt := (compileNodes_settled hcomplete hids).1 _ _ hnodes
  have hlookup : ∀ id layout, lookup known compiled.named id = some layout ↔
      Stands known d.nodes id layout := by
    intro id layout
    rw [lookup, Option.or_eq_some_iff]
    constructor
    · rintro (hfind | ⟨-, hknown⟩)
      · exact hbuilt.stands id layout hfind
      · exact .known hknown
    · intro hstands
      rcases hfind : compiled.named.find? id with _ | l
      · rcases hstands with hknown | ⟨-, -, hs, -, -⟩
        · exact Or.inr ⟨rfl, hknown⟩
        · have hnode : id ∈ d.ids := Table.isSome_find?_iff.mp (by rw [hs]; rfl)
          exact absurd (hbuilt.all id (hall id hnode)) (Table.find?_eq_none_iff.mp hfind)
      · rw [(hbuilt.stands id l hfind).unique _ hstands]
        exact Or.inl rfl
  rw [← hd']
  refine ⟨hlookup, fun id hid => ?_, (yields_iff fun m hm => ?_).mpr ⟨rootTags, hroot⟩⟩
  · obtain ⟨l, -, hl⟩ := hbuilt.found (Or.inl (hall id hid))
    exact ⟨l, hl⟩
  · exact hbuilt.found ((hnames m hm).imp_left (hall m))

/-- A node that stands for a layout has its place in the order. -/
theorem Stands.mem_settled (h : Stands known d.nodes id layout) (hids : d.ids.Nodup)
    (hdeps : ∀ id s, d.nodes.find? id = some s → ∀ m, d.dependsOn id m → s.NamesBelow m)
    (hfresh : ∀ id ∈ d.ids, known id = none) : id ∈ d.ids → id ∈ d.settled := by
  induction h with
  | known h =>
    intro hid
    rw [hfresh _ hid] at h
    cases h
  | @node id s layout tags lay hid hs hbelow h ih =>
    intro hid
    refine (Dependencies.mem_settled_iff hids).mpr ⟨hid, Dependencies.isReady_iff.mpr ?_⟩
    exact fun m hm hdep => ih m (hdeps id s hs m hdep) hm

/-- **Compiling succeeds.**  A tree is compiled if its root yields a layout. -/
theorem exists_compileTree
    (h : Yields known (treeNodes known root) (root.id.getD "<root>") root layout) :
    ∃ compiled, compileTree known root = .ok compiled := by
  set d := Dependencies.walk (fun id => (known id).isSome) none root {} with hwalk
  obtain ⟨hnodup, hfresh⟩ := treeNodes_fresh known root
  -- whatever has been noted stands for a layout
  obtain ⟨hnodes, hreferences⟩ : d.Satisfies fun id => ∃ l, Stands known d.nodes id l := by
    obtain ⟨lay, -, hnames, -⟩ := h
    refine Dependencies.noted_walk root none {} (fun id hid => ⟨lay id, hnames id hid⟩) ?_
      ⟨fun id hid => absurd hid List.not_mem_nil, fun id hid => absurd hid List.not_mem_nil⟩
    rintro ⟨id, s⟩ hnode ⟨l, hl⟩
    exact hl.exists_below (hfresh id (List.mem_map.mpr ⟨_, hnode, rfl⟩))
      ((Table.find?_eq_some_iff hnodup).mpr hnode)
  have hd : Dependencies.ofSchema (fun id => (known id).isSome) root = .ok d := by
    refine Dependencies.ofSchema_eq_ok.mpr ⟨rfl, fun id hid => ?_⟩
    obtain ⟨l, hknown | ⟨-, -, hs, -, -⟩⟩ := hreferences id hid
    · exact Or.inr (by rw [hknown]; rfl)
    · exact Or.inl (Table.isSome_find?_iff.mp (by rw [hs]; rfl))
  obtain ⟨hcomplete, hroot⟩ := complete_walk hd
  have hall : ∀ id ∈ d.ids, id ∈ d.settled := by
    intro id hid
    obtain ⟨l, hl⟩ := hnodes id hid
    refine hl.mem_settled hnodup (fun id s hs m hdep => ?_) hfresh hid
    obtain ⟨t, ht, hm⟩ := Dependencies.dependsOn_walk.mp hdep
    have hsame := (Table.find?_eq_some_iff hnodup).mpr ht
    obtain rfl := Option.some.inj (hs.symm.trans hsame)
    exact hm
  obtain ⟨hbuilt, hok⟩ := compileNodes_settled hcomplete hnodup
  obtain ⟨⟨named, nodeTags⟩, hrun⟩ := hok hnodes
  have hbuilt := hbuilt named nodeTags hrun
  have hfound : ∀ m, root.Names m →
      ∃ l, lookup known named m = some l ∧ Stands known d.nodes m l :=
    fun m hm => hbuilt.found ((hroot m hm).imp_left (hall m))
  obtain ⟨rootTags, hresolve⟩ := (yields_iff hfound).mp h
  exact ⟨⟨layout, named, nodeTags ++ rootTags⟩, compileTree_eq_ok.mpr
    ⟨d, d.settled, nodeTags, rootTags, hd, Dependencies.order_eq_ok_iff.mpr ⟨rfl, hall⟩, hrun,
      hresolve, rfl⟩⟩

end Compile

/-! ## Catalogs -/

namespace Catalog

open Compile

variable {c c' : Catalog} {s : Schema} {layout : Layout}

/-- After a schema without a known id has been compiled, the catalog has an id under a layout just if
the id stands for it. -/
theorem compile_stands (hroot : s.id.bind c.byId? = none) (h : c.compile s = .ok (layout, c')) :
    (∀ id l, c'.byId? id = some l ↔ Stands c.byId? (treeNodes c.byId? s) id l)
    ∧ (∀ id ∈ (treeNodes c.byId? s).keys, ∃ l, Stands c.byId? (treeNodes c.byId? s) id l)
    ∧ Yields c.byId? (treeNodes c.byId? s) (s.id.getD "<root>") s layout := by
  rcases compile_eq_ok.mp h with ⟨hfound, -⟩ | ⟨-, compiled, hcompiled, rfl, rfl⟩
  · rw [hroot] at hfound
    cases hfound
  · obtain ⟨hstands, hnodes, hyields⟩ := compileTree_stands hcompiled
    refine ⟨fun id l => ?_, hnodes, hyields⟩
    show (c.named.insertAll compiled.named).find? id = some l ↔ _
    rw [find?_insertAll_named hcompiled]
    exact hstands id l

theorem exists_compile (hroot : s.id.bind c.byId? = none)
    (h : Yields c.byId? (treeNodes c.byId? s) (s.id.getD "<root>") s layout) :
    ∃ layout c', c.compile s = .ok (layout, c') := by
  obtain ⟨compiled, hcompiled⟩ := exists_compileTree h
  exact ⟨_, _, compile_eq_ok.mpr (Or.inr ⟨hroot, compiled, hcompiled, rfl, rfl⟩)⟩

end Catalog

end BinarySchema
