/-
# Compilation sees only what the schema names

Two catalogs that have the same layouts under the ids that occur in a schema cannot be told apart by
submitting it: the result is the same, an error included, and so is what is inserted
(`Catalog.additions`).  For the walk, the order and the compilation this is one congruence each
(`Dependencies.walk_congr`, `Compile.compileNodes_congr`, `Compile.compileTree_congr`).

What a submission inserts has ids that occur in the schema.  So two submissions without a common id
do not see each other, and where they also claim different tags, their order does not matter
(`Catalog.submit_local`).
-/
import BinarySchema.Proofs.Names
import BinarySchema.Proofs.Submission

namespace BinarySchema

/-! ## The walk -/

namespace Dependencies

variable {known known' : String → Bool} {d : Dependencies} {s : Schema}

theorem walkAll_congr {schemas : List Schema} (h : ∀ s ∈ schemas, ∀ owner d,
    walk known owner s d = walk known' owner s d) (owner : Option String) (d : Dependencies) :
    walkAll known owner schemas d = walkAll known' owner schemas d := by
  unfold walkAll
  exact List.foldl_ext _ _ _ fun d s hs => h s hs owner d

/-- A walk asks only for ids that occur in the schema. -/
theorem walk_congr (s : Schema) (h : ∀ id, s.Mentions id → known id = known' id) :
    ∀ owner d, walk known owner s d = walk known' owner s d := by
  induction s using Schema.induction with
  | h s ih =>
    intro owner d
    have hchildren := walkAll_congr fun child hchild =>
      ih child hchild fun id hid => h id (.child hchild hid)
    rw [walk_eq, walk_eq]
    rcases hs : s.reference with _ | r
    · rcases hid : s.id with _ | id
      · exact hchildren owner d
      · simp only [h id (.id hid), hchildren]
    · rfl

/-- The ids that are met occur in the schemas. -/
theorem Meets.mentioned {met new : List String} {pending : List Schema}
    (h : Meets known met pending new) : ∀ id ∈ new, ∃ s ∈ pending, s.Mentions id := by
  -- a child that is pending stands for its parent
  have hparent : ∀ {s : Schema} {rest : List Schema} {id : String},
      (∃ t ∈ s.children ++ rest, t.Mentions id) → ∃ t ∈ s :: rest, t.Mentions id := by
    rintro s rest id ⟨t, ht, hid⟩
    rcases List.mem_append.mp ht with ht | ht
    · exact ⟨s, List.mem_cons_self, .child ht hid⟩
    · exact ⟨t, List.mem_cons_of_mem s ht, hid⟩
  have hlater : ∀ {s : Schema} {rest : List Schema} {id : String},
      (∃ t ∈ rest, t.Mentions id) → ∃ t ∈ s :: rest, t.Mentions id :=
    fun ⟨t, ht, hid⟩ => ⟨t, List.mem_cons_of_mem _ ht, hid⟩
  induction h with
  | done => simp
  | reference hs h ih => exact fun id hid => hlater (ih id hid)
  | anonymous hs hid h ih => exact fun id hid => hparent (ih id hid)
  | met hs hid hmet h ih => exact fun id hid => hlater (ih id hid)
  | @named met s rest new id hs hid hknown hmet h ih =>
    intro id' hid'
    rcases List.mem_cons.mp hid' with rfl | hid'
    · exact ⟨s, List.mem_cons_self, .id hid⟩
    · exact hparent (ih id' hid')

/-- The references that a walk notes occur in the schema. -/
theorem references_mentioned (s : Schema) : ∀ owner d, ∀ id ∈ (walk known owner s d).references,
    id ∈ d.references ∨ s.Mentions id := by
  induction s using Schema.induction with
  | h s ih =>
    have hchildren : ∀ owner (d d' : Dependencies), d'.references = d.references →
        ∀ id ∈ (walkAll known owner s.children d').references,
          id ∈ d.references ∨ s.Mentions id := by
      intro owner d d' hd'
      refine List.foldlRecOn (motive := fun d' : Dependencies => ∀ id ∈ d'.references,
        id ∈ d.references ∨ s.Mentions id) s.children _ (fun id hid => Or.inl (hd' ▸ hid)) ?_
      intro d' hd' child hchild id hid
      rcases ih child hchild owner d' id hid with hid | hid
      · exact hd' id hid
      · exact Or.inr (.child hchild hid)
    intro owner d
    rw [walk_eq]
    rcases hs : s.reference with _ | r
    · rcases hid : s.id with _ | i
      · exact hchildren owner d d rfl
      · dsimp only
        split_ifs
        · rw [references_addEdge]
          exact fun id hid => Or.inl hid
        · exact hchildren _ d _ (references_addEdge d owner i)
    · dsimp only
      rw [references_addReference]
      intro id hid
      rcases List.mem_append.mp hid with hid | hid
      · exact Or.inl hid
      · rw [List.mem_singleton.mp hid]
        exact Or.inr (.reference hs)

theorem ofSchema_congr (h : ∀ id, s.Mentions id → known id = known' id) :
    ofSchema known s = ofSchema known' s := by
  unfold ofSchema
  rw [walk_congr s h none {}]
  have hfind : ∀ references : List String, (∀ id ∈ references, s.Mentions id) →
      (references.find? fun id => !(walk known' none s {}).nodes.hasKey id && !known id)
        = references.find? fun id => !(walk known' none s {}).nodes.hasKey id && !known' id := by
    intro references hreferences
    induction references with
    | nil => rfl
    | cons id rest ih =>
      rw [List.find?_cons, List.find?_cons, h id (hreferences id List.mem_cons_self),
        ih fun id hid => hreferences id (List.mem_cons_of_mem _ hid)]
  dsimp only
  rw [hfind]
  intro id hid
  exact (references_mentioned s none {} id hid).resolve_left List.not_mem_nil

end Dependencies

/-! ## Compiling -/

namespace Compile

variable {known known' : String → Option Layout} {s : Schema}

theorem lookup_congr {named : Table String Layout} {id : String} (h : known id = known' id) :
    lookup known named id = lookup known' named id := by
  rw [lookup, lookup, h]

/-- Nodes in which only ids with the same layouts occur get the same layouts. -/
theorem compileNodes_congr {d : Dependencies}
    (h : ∀ node ∈ d.nodes, ∀ id, node.2.Mentions id → known id = known' id)
    (order : List String) (named : Table String Layout) :
    compileNodes known d order named = compileNodes known' d order named := by
  induction order generalizing named with
  | nil => rfl
  | cons id rest ih =>
    rw [compileNodes, compileNodes]
    rcases hs : d.nodes.find? id with _ | s
    · exact ih named
    · have hmentions : ∀ id, s.Mentions id → known id = known' id :=
        Table.of_find? (P := fun s => ∀ id, Schema.Mentions id s → known id = known' id) h hs
      have hcompile : compile (lookup known named) id s = compile (lookup known' named) id s :=
        compile_congr_known (fun child hchild id hlook =>
          lookup_congr (hmentions id (.child hchild hlook.mentions))) id
      simp only [hcompile, ih]

/-- **Trees.**  Compiling a tree of schemas depends on the layouts of ids that occur in it. -/
theorem compileTree_congr (h : ∀ id, s.Mentions id → known id = known' id) :
    compileTree known s = compileTree known' s := by
  have hd : Dependencies.ofSchema (fun id => (known id).isSome) s
      = Dependencies.ofSchema (fun id => (known' id).isSome) s :=
    Dependencies.ofSchema_congr fun id hid => by rw [h id hid]
  unfold compileTree
  rw [← hd]
  rcases hofSchema : Dependencies.ofSchema (fun id => (known id).isSome) s with e | d
  · rfl
  · have hnodes : ∀ node ∈ d.nodes, ∀ id, node.2.Mentions id → known id = known' id :=
      Dependencies.ofSchema_nodes (U := fun t => ∀ id, t.Mentions id → known id = known' id)
        (fun t ht child hchild id hid => ht id (.child hchild hid)) h hofSchema
    have hroot : ∀ named place,
        resolve (lookup known named) s (compile (lookup known named) place s)
          = resolve (lookup known' named) s (compile (lookup known' named) place s) :=
      fun named => resolve_congr s fun id hlook => lookup_congr (h id hlook.mentions)
    simp only [ok_bind, compileNodes_congr hnodes, hroot]

end Compile

/-! ## Submissions -/

namespace Catalog

/-- Layouts by name and by tag, in the order in which they are inserted. -/
structure Additions where
  /-- The layouts with names. -/
  named : Table String Layout := []
  /-- The layouts with tags. -/
  tags : TagClaims := []

/-- The catalog after insertions. -/
def add (c : Catalog) (a : Additions) : Catalog :=
  { c with named := c.named.insertAll a.named, tagged := c.tagged.insertAll a.tags }

/-- What submitting a schema inserts: nothing where the schema has the name of a layout, or cannot be
compiled. -/
def additions (c : Catalog) (s : Schema) : Additions :=
  match s.id.bind c.byId? with
  | some _ => {}
  | none =>
    match Compile.compileTree c.byId? s with
    | .ok compiled => { named := compiled.named, tags := compiled.tags }
    | .error _ => {}

/-- What submitting a schema results in. -/
def result (c : Catalog) (s : Schema) : Except CompileError Layout := (c.compile s).map Prod.fst

variable {c c' : Catalog} {s s₁ s₂ : Schema}

/-- A submission gives its result, and inserts its additions. -/
theorem submit_run_add (s : Schema) (c : Catalog) :
    (submit s).run c = (c.result s, c.add (c.additions s)) := by
  rw [submit_run]
  unfold result additions compile
  rcases s.id.bind c.byId? with _ | layout
  · dsimp only
    rcases Compile.compileTree c.byId? s with e | compiled <;> rfl
  · rfl

/-- Submissions are the same to catalogs that agree on the ids that occur in the schema. -/
theorem submit_congr (h : ∀ id, s.Mentions id → c.byId? id = c'.byId? id) :
    c.result s = c'.result s ∧ c.additions s = c'.additions s := by
  have hroot : s.id.bind c.byId? = s.id.bind c'.byId? := by
    rcases hid : s.id with _ | id
    · rfl
    · exact h id (.id hid)
  have htree := Compile.compileTree_congr h
  unfold result additions compile
  rw [← hroot, ← htree]
  rcases s.id.bind c.byId? with _ | layout
  · dsimp only
    rcases Compile.compileTree c.byId? s with e | compiled <;> exact ⟨rfl, rfl⟩
  · exact ⟨rfl, rfl⟩

/-- The names that a submission inserts are new, distinct, and occur in the schema. -/
theorem additions_named (c : Catalog) (s : Schema) : (c.additions s).named.keys.Nodup
    ∧ ∀ id ∈ (c.additions s).named.keys, c.byId? id = none ∧ s.Mentions id := by
  have hnothing : (Table.keys ([] : Table String Layout)).Nodup
      ∧ ∀ id ∈ Table.keys ([] : Table String Layout), c.byId? id = none ∧ s.Mentions id :=
    ⟨List.nodup_nil, fun id hid => absurd hid List.not_mem_nil⟩
  unfold additions
  rcases s.id.bind c.byId? with _ | layout
  · rcases htree : Compile.compileTree c.byId? s with e | compiled
    · exact hnothing
    · obtain ⟨new, hmeets, hperm⟩ := compileTree_named htree
      refine ⟨hperm.nodup_iff.mpr hmeets.fresh.1, fun id hid => ?_⟩
      have hnew : id ∈ new := hperm.mem_iff.mp hid
      constructor
      · have hnone := (hmeets.fresh.2 id hnew).1
        rw [hasName, Option.not_isSome_iff_eq_none] at hnone
        exact hnone
      · obtain ⟨t, ht, hid⟩ := hmeets.mentioned id hnew
        rw [← List.mem_singleton.mp ht]
        exact hid
  · exact hnothing

theorem byId?_add (c : Catalog) (s : Schema) (id : String) : (c.add (c.additions s)).byId? id
    = ((c.additions s).named.find? id).or (c.byId? id) := by
  show (c.named.insertAll _).find? id = _
  rw [Table.find?_insertAll, Table.find?_ofList (additions_named c s).1]
  rfl

/-- What a submission inserts does not matter to schemas without a common id. -/
theorem byId?_add_of_mentions (hids : ∀ id, s₁.Mentions id → ¬ s₂.Mentions id) {id : String}
    (hid : s₂.Mentions id) : (c.add (c.additions s₁)).byId? id = c.byId? id := by
  have hnew : id ∉ (c.additions s₁).named.keys :=
    fun h => hids id ((additions_named c s₁).2 id h).2 hid
  rw [byId?_add, Table.find?_eq_none_iff.mpr hnew, Option.none_or]

/-- Tables of insertions without a common key can be searched in either order. -/
theorem or_find?_comm {κ α : Type} [BEq κ] [LawfulBEq κ] {t u : Table κ α}
    (h : ∀ k ∈ t.keys, k ∉ u.keys) (k : κ) (o : Option α) :
    (t.find? k).or ((u.find? k).or o) = (u.find? k).or ((t.find? k).or o) := by
  by_cases hk : k ∈ t.keys
  · rw [Table.find?_eq_none_iff.mpr (h k hk), Option.none_or, Option.none_or]
  · rw [Table.find?_eq_none_iff.mpr hk, Option.none_or, Option.none_or]

/-- **Locality.**  Catalogs that have the same layouts under the ids that occur in a schema give the
same result for it, and insert the same layouts under new names, which occur in the schema, and
tags.  Two schemas without a common id that insert different tags can be submitted in either order:
the results are the same, and so is all that is found afterwards. -/
theorem submit_local :
    (∀ (s : Schema) (c c' : Catalog), (∀ id, s.Mentions id → c.byId? id = c'.byId? id) →
      ∃ result added, (submit s).run c = (result, c.add added)
        ∧ (submit s).run c' = (result, c'.add added) ∧ added = c.additions s
        ∧ ∀ id ∈ added.named.keys, s.Mentions id ∧ c.byId? id = none ∧ c'.byId? id = none)
    ∧ ∀ (s₁ s₂ : Schema) (c : Catalog), (∀ id, s₁.Mentions id → ¬ s₂.Mentions id) →
      (∀ tag ∈ (c.additions s₁).tags.map Prod.fst, tag ∉ (c.additions s₂).tags.map Prod.fst) →
      ∃ r₁ r₂ c₁₂ c₂₁, (submitAll [s₁, s₂]).run c = ([r₁, r₂], c₁₂)
        ∧ (submitAll [s₂, s₁]).run c = ([r₂, r₁], c₂₁)
        ∧ (∀ id, c₁₂.byId? id = c₂₁.byId? id) ∧ ∀ tag, c₁₂.byTag? tag = c₂₁.byTag? tag := by
  constructor
  · intro s c c' h
    obtain ⟨hresult, hadded⟩ := submit_congr h
    refine ⟨c.result s, c.additions s, submit_run_add s c, ?_, rfl, fun id hid => ?_⟩
    · rw [submit_run_add, hresult, hadded]
    · obtain ⟨hnew, hmentions⟩ := (additions_named c s).2 id hid
      exact ⟨hmentions, hnew, h id hmentions ▸ hnew⟩
  · intro s₁ s₂ c hids htags
    have hids' : ∀ id, s₂.Mentions id → ¬ s₁.Mentions id := fun id h₂ h₁ => hids id h₁ h₂
    -- neither submission sees what the other one has inserted
    obtain ⟨hresult₂, hadded₂⟩ : (c.add (c.additions s₁)).result s₂ = c.result s₂
        ∧ (c.add (c.additions s₁)).additions s₂ = c.additions s₂ :=
      submit_congr fun id hid => byId?_add_of_mentions hids hid
    obtain ⟨hresult₁, hadded₁⟩ : (c.add (c.additions s₂)).result s₁ = c.result s₁
        ∧ (c.add (c.additions s₂)).additions s₁ = c.additions s₁ :=
      submit_congr fun id hid => byId?_add_of_mentions hids' hid
    have hrun : ∀ s t, (submitAll [s, t]).run c = ([c.result s, (c.add (c.additions s)).result t],
        (c.add (c.additions s)).add ((c.add (c.additions s)).additions t)) := by
      intro s t
      show ([((submit s).run c).1, ((submit t).run ((submit s).run c).2).1],
        ((submit t).run ((submit s).run c).2).2) = _
      rw [submit_run_add s c, submit_run_add t]
    refine ⟨_, _, _, _, by rw [hrun, hresult₂], by rw [hrun, hresult₁], fun id => ?_, fun tag => ?_⟩
    · rw [byId?_add, byId?_add, byId?_add, byId?_add, hadded₂, hadded₁]
      refine or_find?_comm (fun id h₂ h₁ => ?_) id _
      exact hids id ((additions_named c s₁).2 id h₁).2 ((additions_named c s₂).2 id h₂).2
    · rw [hadded₂, hadded₁]
      show ((c.tagged.insertAll _).insertAll _).find? tag
        = ((c.tagged.insertAll _).insertAll _).find? tag
      simp only [Table.find?_insertAll]
      refine or_find?_comm (fun tag h₂ h₁ => ?_) tag _
      have hkeys : ∀ entries : TagClaims, tag ∈ (Table.ofList entries).keys →
          tag ∈ entries.map Prod.fst := fun entries h =>
        (Table.mem_keys_insertAll.mp h).resolve_left List.not_mem_nil
      exact htags tag (hkeys _ h₁) (hkeys _ h₂)

/-- A record with a tag and a list of unknown items do not see each other, in whichever order they
are submitted and whatever else has a name. -/
theorem submit_local_unknownItems :
    let tag : Schema := (Schema.scalar .integer .uint8).withDefault (.number (.natural 1))
    let record : Schema := { id := some "R", type := some .object, properties := [("tag", tag)] }
    let list : Schema := { id := some "L", type := some .array, items := some (.referTo "I") }
    let c : Catalog := .ofSettings ⟨0⟩
    let c' : Catalog := c.add { named := [("N", .text none)] }
    let layout : Layout :=
      .object [⟨"tag", .primitive .uint8, .fixed ⟨0, 1⟩, tag.defaultValue?, none⟩]
    (∃ added, (submit list).run c = (.error (.unknownReference "I"), c.add added)
      ∧ (submit list).run c' = (.error (.unknownReference "I"), c'.add added))
    ∧ ∃ c₁₂ c₂₁,
      (submitAll [record, list]).run c = ([.ok layout, .error (.unknownReference "I")], c₁₂)
      ∧ (submitAll [list, record]).run c = ([.error (.unknownReference "I"), .ok layout], c₂₁)
      ∧ (∀ id, c₁₂.byId? id = c₂₁.byId? id) ∧ ∀ tag, c₁₂.byTag? tag = c₂₁.byTag? tag := by
  intro tag record list c c' layout
  have htag : ∀ id, ¬ tag.Mentions id := by
    intro id
    rw [Schema.mentions_iff]
    simp [Schema.children, tag, Schema.scalar, Schema.withDefault]
  have hrecord : ∀ id, record.Mentions id → id = "R" := by
    intro id
    rw [Schema.mentions_iff]
    simp [Schema.children, record, htag, eq_comm]
  have hlist : ∀ id, list.Mentions id → id = "L" ∨ id = "I" := by
    intro id
    have hitems : (Schema.referTo "I").Mentions id ↔ "I" = id := by
      rw [Schema.mentions_iff]
      simp [Schema.children, Schema.referTo]
    rw [Schema.mentions_iff]
    simp [Schema.children, list, hitems, eq_comm]
  constructor
  · obtain ⟨result, added, hc, hc', -⟩ := submit_local.1 list c c' (by
      intro id hid
      rcases hlist id hid with rfl | rfl <;> rfl)
    obtain rfl : result = .error (.unknownReference "I") := (congrArg Prod.fst hc).symm
    exact ⟨added, hc, hc'⟩
  · obtain ⟨r₁, r₂, c₁₂, c₂₁, h₁₂, h₂₁, hfound⟩ := submit_local.2 record list c
      (by
        intro id hid
        rw [hrecord id hid]
        exact fun h => absurd (hlist "R" h) (by decide))
      (by
        have hnone : c.additions list = {} := rfl
        simp [hnone])
    obtain ⟨hr₁, hr₂⟩ := List.cons.inj (congrArg Prod.fst h₁₂)
    obtain rfl : r₁ = .ok layout := hr₁.symm
    obtain rfl : r₂ = .error (.unknownReference "I") := (List.cons.inj hr₂).1.symm
    exact ⟨c₁₂, c₂₁, h₁₂, h₂₁, hfound⟩

end Catalog

end BinarySchema
