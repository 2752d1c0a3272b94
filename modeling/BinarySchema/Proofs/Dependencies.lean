/-
# Walking a tree of schemas

A walk notes the named schemas that it meets.  `Meets` says which ids these are, in the words of a
list of schemas that are still to be visited; `meets_walk` says that the walk notes just them.  What
a walk has noted is enough to walk the tree again without noting anything new (`settled_walk`,
`walk_of_settled`).
-/
import BinarySchema.Catalog.Dependencies
import BinarySchema.Proofs.Compile
import BinarySchema.Proofs.Table

namespace BinarySchema

namespace Dependencies

variable {known known' : String → Bool} {owner : Option String} {d : Dependencies} {s : Schema}

/-! ## One step -/

/-- Walks schemas in turn. -/
def walkAll (known : String → Bool) (owner : Option String) (schemas : List Schema)
    (d : Dependencies) : Dependencies :=
  schemas.foldl (fun d s => walk known owner s d) d

theorem walkFields_eq (properties : List (String × Schema)) (d : Dependencies) :
    walkFields known owner properties d = walkAll known owner (properties.map (·.2)) d := by
  induction properties generalizing d with
  | nil =>
    unfold walkFields
    rfl
  | cons property rest ih =>
    unfold walkFields
    exact ih _

theorem walkOption_eq (s : Option Schema) (d : Dependencies) :
    walkOption known owner s d = walkAll known owner s.toList d := by
  cases s with
  | none =>
    unfold walkOption
    rfl
  | some s =>
    unfold walkOption
    rfl

/-- What walking a schema does: references and ids are noted, and the children of a schema are
walked unless it is a reference or has an id that is known. -/
theorem walk_eq (known : String → Bool) (owner : Option String) (s : Schema) (d : Dependencies) :
    walk known owner s d = match s.reference, s.id with
      | some reference, _ => d.addReference owner reference
      | none, none => walkAll known owner s.children d
      | none, some id =>
        if (d.addEdge owner id).nodes.hasKey id || known id then d.addEdge owner id
        else walkAll known (some id) s.children ((d.addEdge owner id).addNode id s) := by
  obtain ⟨facts, properties, items, propertyNames, additionalProperties⟩ := s
  have hchildren : ∀ owner d,
      (walkOption known owner additionalProperties <| walkOption known owner propertyNames <|
        walkOption known owner items <| walkFields known owner properties d)
      = walkAll known owner
          (Schema.children ⟨facts, properties, items, propertyNames, additionalProperties⟩) d := by
    intro owner d
    rw [walkFields_eq, walkOption_eq, walkOption_eq, walkOption_eq]
    unfold walkAll Schema.children
    rw [List.foldl_append, List.foldl_append, List.foldl_append]
  rw [walk]
  dsimp only
  cases hreference : facts.reference with
  | some reference => rfl
  | none =>
    cases hid : facts.id with
    | none => exact hchildren owner d
    | some id =>
      dsimp only
      rw [hchildren]

theorem nodes_addEdge (d : Dependencies) (owner : Option String) (id : String) :
    (d.addEdge owner id).nodes = d.nodes := by
  cases owner <;> rfl

theorem references_addEdge (d : Dependencies) (owner : Option String) (id : String) :
    (d.addEdge owner id).references = d.references := by
  cases owner <;> rfl

theorem nodes_addReference (d : Dependencies) (owner : Option String) (id : String) :
    (d.addReference owner id).nodes = d.nodes :=
  nodes_addEdge d owner id

theorem references_addReference (d : Dependencies) (owner : Option String) (id : String) :
    (d.addReference owner id).references = d.references ++ [id] := by
  show (d.addEdge owner id).references ++ [id] = _
  rw [references_addEdge]

theorem walk_reference {reference : String} (hs : s.reference = some reference) :
    walk known owner s d = d.addReference owner reference := by
  rw [walk_eq, hs]

theorem walk_anonymous (hs : s.reference = none) (hid : s.id = none) :
    walk known owner s d = walkAll known owner s.children d := by
  rw [walk_eq, hs, hid]

/-- A schema whose id is known or has been met is not walked again. -/
theorem walk_met {id : String} (hs : s.reference = none) (hid : s.id = some id)
    (hmet : known id ∨ id ∈ d.ids) : walk known owner s d = d.addEdge owner id := by
  rw [walk_eq, hs, hid]
  dsimp only
  rw [nodes_addEdge, if_pos]
  rw [Bool.or_eq_true, Table.hasKey_iff]
  exact hmet.symm

theorem walk_new {id : String} (hs : s.reference = none) (hid : s.id = some id)
    (hknown : ¬ known id) (hmet : id ∉ d.ids) : walk known owner s d
      = walkAll known (some id) s.children ((d.addEdge owner id).addNode id s) := by
  rw [walk_eq, hs, hid]
  dsimp only
  rw [nodes_addEdge, if_neg]
  rw [Bool.or_eq_true, Table.hasKey_iff, not_or]
  exact ⟨hmet, hknown⟩

/-- What holds of a schema whenever it holds of the schemas that it is walked by. -/
theorem walk_induction {P : Schema → Prop}
    (reference : ∀ s reference, s.reference = some reference → P s)
    (anonymous : ∀ s, s.reference = none → s.id = none → (∀ child ∈ s.children, P child) → P s)
    (named : ∀ s id, s.reference = none → s.id = some id → (∀ child ∈ s.children, P child) → P s)
    (s : Schema) : P s := by
  induction s using Schema.induction with
  | h s ih =>
    cases hreference : s.reference with
    | some r => exact reference s r hreference
    | none =>
      cases hid : s.id with
      | none => exact anonymous s hreference hid ih
      | some id => exact named s id hreference hid ih

/-! ## What is noted -/

/-- The walk notes schemas that it begins with, and schemas in them. -/
theorem nodes_walk {U : Schema → Prop} (hU : ∀ s, U s → ∀ child ∈ s.children, U child)
    (s : Schema) (hs : U s) : ∀ owner d, (∀ node ∈ nodes d, U node.2) →
      ∀ node ∈ (walk known owner s d).nodes, U node.2 := by
  induction s using Schema.induction with
  | h s ih =>
    have hchildren : ∀ owner d, (∀ node ∈ nodes d, U node.2) →
        ∀ node ∈ (walkAll known owner s.children d).nodes, U node.2 := fun owner d hd =>
      List.foldlRecOn (motive := fun d => ∀ node ∈ nodes d, U node.2) s.children _ hd
        fun d hd child hchild => ih child hchild (hU s hs child hchild) owner d hd
    intro owner d hd
    rw [walk_eq]
    split
    · rw [nodes_addReference]
      exact hd
    · exact hchildren owner d hd
    · split_ifs
      · rw [nodes_addEdge]
        exact hd
      · refine hchildren _ _ fun node hnode => ?_
        rcases List.mem_append.mp hnode with hnode | hnode
        · rw [nodes_addEdge] at hnode
          exact hd node hnode
        · rw [List.mem_singleton.mp hnode]
          exact hs

/-- Each node is noted under its own id. -/
theorem id_nodes_walk (s : Schema) : ∀ owner d, (∀ node ∈ nodes d, node.2.id = some node.1) →
    ∀ node ∈ (walk known owner s d).nodes, node.2.id = some node.1 := by
  have hall : ∀ schemas : List Schema, (∀ s ∈ schemas, ∀ owner d,
      (∀ node ∈ nodes d, node.2.id = some node.1) →
      ∀ node ∈ (walk known owner s d).nodes, node.2.id = some node.1) → ∀ owner d,
      (∀ node ∈ nodes d, node.2.id = some node.1) →
      ∀ node ∈ (walkAll known owner schemas d).nodes, node.2.id = some node.1 :=
    fun schemas h owner d hd => List.foldlRecOn
      (motive := fun d => ∀ node ∈ nodes d, node.2.id = some node.1) schemas _ hd
      fun d hd s hs => h s hs owner d hd
  induction s using walk_induction with
  | reference s r hs =>
    intro owner d hd
    rw [walk_reference hs, nodes_addReference]
    exact hd
  | anonymous s hs hid ih =>
    intro owner d hd
    rw [walk_anonymous hs hid]
    exact hall _ ih owner d hd
  | named s id hs hid ih =>
    intro owner d hd
    by_cases hmet : known id ∨ id ∈ d.ids
    · rw [walk_met hs hid hmet, nodes_addEdge]
      exact hd
    · rw [walk_new hs hid (not_or.mp hmet).1 (not_or.mp hmet).2]
      refine hall _ ih _ _ fun node hnode => ?_
      rcases List.mem_append.mp hnode with hnode | hnode
      · rw [nodes_addEdge] at hnode
        exact hd node hnode
      · rw [List.mem_singleton.mp hnode]
        exact hid

/-- The dependencies of a tree are those that a walk from its root notes, if each reference leads to
a node or to a known id. -/
theorem ofSchema_eq_ok {root : Schema} : ofSchema known root = .ok d ↔
    d = walk known none root {} ∧ ∀ id ∈ d.references, id ∈ d.ids ∨ known id := by
  have hfound : (∀ id ∈ (walk known none root {}).references,
      ¬ (!(walk known none root {}).nodes.hasKey id && !known id) = true)
      ↔ ∀ id ∈ (walk known none root {}).references,
        id ∈ (walk known none root {}).ids ∨ known id := by
    refine forall₂_congr fun id _ => ?_
    rw [ids, ← Table.hasKey_iff, Bool.and_eq_true, Bool.not_eq_true', Bool.not_eq_true',
      not_and_or, Bool.not_eq_false, Bool.not_eq_false]
  unfold ofSchema
  dsimp only
  split
  · next id hsome =>
    constructor
    · intro h
      cases h
    · rintro ⟨rfl, h⟩
      exact absurd (List.find?_some hsome) (hfound.mpr h id (List.mem_of_find?_eq_some hsome))
  · next hnone =>
    constructor
    · intro h
      cases h
      exact ⟨rfl, hfound.mp (List.find?_eq_none.mp hnone)⟩
    · rintro ⟨rfl, -⟩
      rfl

theorem ofSchema_nodes {U : Schema → Prop} (hU : ∀ s, U s → ∀ child ∈ s.children, U child)
    {root : Schema} (hroot : U root) (h : ofSchema known root = .ok d) :
    ∀ node ∈ d.nodes, U node.2 := by
  rw [(ofSchema_eq_ok.mp h).1]
  exact nodes_walk hU root hroot none {} fun node hnode => absurd hnode List.not_mem_nil

/-- The ids that a walk meets which has met some before and has schemas pending.  A schema with a
known id, or with one that was met before, counts for nothing, nor does anything below it; a
reference defines nothing. -/
inductive Meets (known : String → Bool) : (met : List String) → (pending : List Schema) →
    (new : List String) → Prop
  | done {met : List String} : Meets known met [] []
  | reference {met : List String} {s : Schema} {rest : List Schema} {new : List String}
      (hs : s.reference.isSome) (h : Meets known met rest new) : Meets known met (s :: rest) new
  | anonymous {met : List String} {s : Schema} {rest : List Schema} {new : List String}
      (hs : s.reference = none) (hid : s.id = none)
      (h : Meets known met (s.children ++ rest) new) : Meets known met (s :: rest) new
  | met {met : List String} {s : Schema} {rest : List Schema} {new : List String} {id : String}
      (hs : s.reference = none) (hid : s.id = some id) (hmet : known id ∨ id ∈ met)
      (h : Meets known met rest new) : Meets known met (s :: rest) new
  | named {met : List String} {s : Schema} {rest : List Schema} {new : List String} {id : String}
      (hs : s.reference = none) (hid : s.id = some id) (hknown : ¬ known id) (hmet : id ∉ met)
      (h : Meets known (met ++ [id]) (s.children ++ rest) new) :
      Meets known met (s :: rest) (id :: new)

/-- The ids that a walk meets are new. -/
theorem Meets.fresh {met new : List String} {pending : List Schema}
    (h : Meets known met pending new) : new.Nodup ∧ ∀ id ∈ new, ¬ known id ∧ id ∉ met := by
  induction h with
  | done => exact ⟨List.nodup_nil, fun id hid => absurd hid List.not_mem_nil⟩
  | reference hs h ih => exact ih
  | anonymous hs hid h ih => exact ih
  | met hs hid hmet h ih => exact ih
  | @named met s rest new id hs hid hknown hmet h ih =>
    obtain ⟨hnodup, hnew⟩ := ih
    refine ⟨List.nodup_cons.mpr ⟨?_, hnodup⟩, List.forall_mem_cons.mpr ⟨⟨hknown, hmet⟩, ?_⟩⟩
    · exact fun hmem => (hnew id hmem).2 (List.mem_append_right _ (List.mem_singleton_self id))
    · exact fun id' hid' => ⟨(hnew id' hid').1,
        fun hmem => (hnew id' hid').2 (List.mem_append_left _ hmem)⟩

/-- What is asked of walking a schema: it notes what a walk meets in it. -/
def NotesMet (known : String → Bool) (s : Schema) : Prop :=
  ∀ owner d rest new, Meets known (walk known owner s d).ids rest new →
    ∃ found, (walk known owner s d).ids = d.ids ++ found
      ∧ Meets known d.ids (s :: rest) (found ++ new)

theorem meets_walkAll {schemas : List Schema} (hschemas : ∀ s ∈ schemas, NotesMet known s)
    (owner : Option String) (d : Dependencies) {rest : List Schema} {new : List String}
    (h : Meets known (walkAll known owner schemas d).ids rest new) :
    ∃ found, (walkAll known owner schemas d).ids = d.ids ++ found
      ∧ Meets known d.ids (schemas ++ rest) (found ++ new) := by
  induction schemas generalizing d with
  | nil => exact ⟨[], (List.append_nil _).symm, h⟩
  | cons s schemas ih =>
    obtain ⟨later, hlater, hmeets⟩ := ih (fun s hs => hschemas s (List.mem_cons_of_mem _ hs))
      (walk known owner s d) h
    obtain ⟨found, hfound, hmeets⟩ := hschemas s List.mem_cons_self owner d _ _ hmeets
    refine ⟨found ++ later, ?_, ?_⟩
    · rw [← List.append_assoc, ← hfound]
      exact hlater
    · rw [List.append_assoc]
      exact hmeets

/-- **Walking.**  The ids that a walk notes are those that it meets. -/
theorem meets_walk (s : Schema) : NotesMet known s := by
  induction s using walk_induction with
  | reference s r hs =>
    intro owner d rest new h
    have hids : (walk known owner s d).ids = d.ids := by
      rw [walk_reference hs, ids, nodes_addReference, ids]
    rw [hids] at h ⊢
    exact ⟨[], (List.append_nil _).symm, .reference (by rw [hs]; rfl) h⟩
  | anonymous s hs hid ih =>
    intro owner d rest new h
    rw [walk_anonymous hs hid] at h ⊢
    obtain ⟨found, hfound, hmeets⟩ := meets_walkAll ih owner d h
    exact ⟨found, hfound, .anonymous hs hid hmeets⟩
  | named s id hs hid ih =>
    intro owner d rest new h
    by_cases hmet : known id ∨ id ∈ d.ids
    · have hids : (walk known owner s d).ids = d.ids := by
        rw [walk_met hs hid hmet, ids, nodes_addEdge, ids]
      rw [hids] at h ⊢
      exact ⟨[], (List.append_nil _).symm, .met hs hid hmet h⟩
    · obtain ⟨hknown, hnew⟩ := not_or.mp hmet
      rw [walk_new hs hid hknown hnew] at h ⊢
      have hids : ((d.addEdge owner id).addNode id s).ids = d.ids ++ [id] := by
        show Table.keys ((d.addEdge owner id).nodes ++ [(id, s)]) = _
        rw [nodes_addEdge, Table.keys, List.map_append]
        rfl
      obtain ⟨found, hfound, hmeets⟩ := meets_walkAll ih (some id) _ h
      rw [hids] at hfound hmeets
      refine ⟨id :: found, ?_, .named hs hid hknown hnew hmeets⟩
      rw [hfound, List.append_assoc]
      rfl

/-- The nodes of a tree are those that a walk from its root meets. -/
theorem ofSchema_meets {root : Schema} (h : ofSchema known root = .ok d) :
    Meets known [] [root] d.ids := by
  obtain ⟨found, hfound, hmeets⟩ := meets_walk root none {} [] [] .done
  rw [show ids {} = [] from rfl, List.nil_append] at hfound
  rw [(ofSchema_eq_ok.mp h).1, hfound, ← List.append_nil found]
  exact hmeets

/-! ## Walking again -/

/-- Up to the ids and references on each path, which are known, a schema has no name. -/
inductive Settled (known : String → Bool) : Schema → Prop
  | reference {s : Schema} {id : String} (hs : s.reference = some id) (hknown : known id) :
      Settled known s
  | anonymous {s : Schema} (hs : s.reference = none) (hid : s.id = none)
      (hchildren : ∀ child ∈ s.children, Settled known child) : Settled known s
  | named {s : Schema} {id : String} (hs : s.reference = none) (hid : s.id = some id)
      (hknown : known id) : Settled known s

/-- Whatever has been noted is known. -/
def Covers (known : String → Bool) (d : Dependencies) : Prop :=
  (∀ id ∈ d.ids, known id) ∧ ∀ id ∈ d.references, known id

theorem covers_addEdge {id : String} : Covers known (d.addEdge owner id) ↔ Covers known d := by
  rw [Covers, Covers, ids, nodes_addEdge, references_addEdge, ids]

theorem covers_addReference {id : String} :
    Covers known (d.addReference owner id) ↔ Covers known d ∧ known id := by
  rw [Covers, Covers, ids, nodes_addReference, references_addReference, ids, and_assoc,
    List.forall_mem_append, List.forall_mem_singleton]

theorem covers_addNode {id : String} {node : Schema} :
    Covers known (d.addNode id node) ↔ Covers known d ∧ known id := by
  have hids : (d.addNode id node).ids = d.ids ++ [id] := List.map_append
  rw [Covers, Covers, hids, List.forall_mem_append, List.forall_mem_singleton]
  show (_ ∧ ∀ id ∈ d.references, known id) ↔ _
  tauto

theorem covers_of_walkAll {schemas : List Schema} (hschemas : ∀ s ∈ schemas, ∀ owner d,
    Covers known' (walk known owner s d) → Covers known' d) (owner : Option String)
    (d : Dependencies) (h : Covers known' (walkAll known owner schemas d)) : Covers known' d :=
  List.foldlRecOn (motive := fun d' => Covers known' d' → Covers known' d) schemas _ id
    (fun d' ih s hs h => ih (hschemas s hs owner d' h)) h

/-- What was noted before a walk is noted after it. -/
theorem covers_of_walk (s : Schema) : ∀ owner d, Covers known' (walk known owner s d) →
    Covers known' d := by
  induction s using walk_induction with
  | reference s id hs =>
    intro owner d h
    rw [walk_reference hs, covers_addReference] at h
    exact h.1
  | anonymous s hs hid ih =>
    intro owner d h
    rw [walk_anonymous hs hid] at h
    exact covers_of_walkAll ih owner d h
  | named s id hs hid ih =>
    intro owner d h
    by_cases hmet : known id ∨ id ∈ d.ids
    · rw [walk_met hs hid hmet, covers_addEdge] at h
      exact h
    · rw [walk_new hs hid (not_or.mp hmet).1 (not_or.mp hmet).2] at h
      have hnode := covers_of_walkAll ih _ _ h
      rw [covers_addNode, covers_addEdge] at hnode
      exact hnode.1

/-- Where whatever walking schemas has noted is known, each of them is settled. -/
theorem settled_walkAll {schemas : List Schema} (hschemas : ∀ s ∈ schemas, ∀ owner d,
    Covers known' (walk known owner s d) → Settled known' s) (owner : Option String)
    (d : Dependencies) (h : Covers known' (walkAll known owner schemas d)) :
    ∀ s ∈ schemas, Settled known' s := by
  induction schemas generalizing d with
  | nil => exact fun s hs => absurd hs List.not_mem_nil
  | cons s rest ih =>
    have hrest : Covers known' (walkAll known owner rest (walk known owner s d)) := h
    have hself := covers_of_walkAll (fun s _ => covers_of_walk s) owner _ hrest
    refine List.forall_mem_cons.mpr ⟨hschemas s List.mem_cons_self owner d hself, ?_⟩
    exact ih (fun s hs => hschemas s (List.mem_cons_of_mem _ hs)) _ hrest

/-- Where whatever a walk has noted is known, the schema is settled. -/
theorem settled_walk (hknown : ∀ id, known id → known' id) (s : Schema) :
    ∀ owner d, Covers known' (walk known owner s d) → Settled known' s := by
  induction s using walk_induction with
  | reference s id hs =>
    intro owner d h
    rw [walk_reference hs, covers_addReference] at h
    exact .reference hs h.2
  | anonymous s hs hid ih =>
    intro owner d h
    rw [walk_anonymous hs hid] at h
    exact .anonymous hs hid (settled_walkAll ih owner d h)
  | named s id hs hid ih =>
    intro owner d h
    refine .named hs hid ?_
    by_cases hmet : known id ∨ id ∈ d.ids
    · have hids := (covers_of_walk s owner d h).1
      exact hmet.elim (hknown id) (hids id)
    · rw [walk_new hs hid (not_or.mp hmet).1 (not_or.mp hmet).2] at h
      have hnode := covers_of_walkAll (fun s _ => covers_of_walk s) _ _ h
      exact (covers_addNode.mp hnode).2

/-- Walking a settled schema notes no node, and only references that are known. -/
theorem walk_of_settled (hs : Settled known s) : ∀ owner d, nodes d = [] ∧ Covers known d →
    (walk known owner s d).nodes = [] ∧ Covers known (walk known owner s d) := by
  induction hs with
  | reference hs hknown =>
    intro owner d hd
    rw [walk_reference hs, nodes_addReference, covers_addReference]
    exact ⟨hd.1, hd.2, hknown⟩
  | @anonymous s hs hid hchildren ih =>
    intro owner d hd
    rw [walk_anonymous hs hid]
    exact List.foldlRecOn (motive := fun d => nodes d = [] ∧ Covers known d) s.children _ hd
      fun d hd child hchild => ih child hchild owner d hd
  | named hs hid hknown =>
    intro owner d hd
    rw [walk_met hs hid (Or.inl hknown), nodes_addEdge, covers_addEdge]
    exact hd

/-- Once the nodes of a tree are known, the tree has none. -/
theorem ofSchema_again {root : Schema} (h : ofSchema known root = .ok d)
    (hknown : ∀ id, known id → known' id) (hids : ∀ id ∈ d.ids, known' id) :
    ∃ d', ofSchema known' root = .ok d' ∧ d'.nodes = [] := by
  obtain ⟨rfl, hreferences⟩ := ofSchema_eq_ok.mp h
  have hcovers : Covers known' (walk known none root {}) :=
    ⟨hids, fun id hid => (hreferences id hid).elim (hids id) (hknown id)⟩
  obtain ⟨hnodes, -, hagain⟩ := walk_of_settled (settled_walk hknown root none {} hcovers) none {}
    ⟨rfl, fun id hid => absurd hid List.not_mem_nil, fun id hid => absurd hid List.not_mem_nil⟩
  exact ⟨_, ofSchema_eq_ok.mpr ⟨rfl, fun id hid => Or.inr (hagain id hid)⟩, hnodes⟩

/-! ## Order -/

/-- Every node has its place in the order. -/
theorem order_complete {order : List String} (h : d.order = .ok order) {id : String}
    (hid : id ∈ d.ids) : id ∈ order := by
  unfold Dependencies.order at h
  dsimp only at h
  split at h
  · next hnone =>
    cases h
    have hsettled := List.filter_eq_nil_iff.mp hnone id hid
    simpa using hsettled
  · cases h

theorem order_of_nil (h : d.nodes = []) : d.order = .ok [] := by
  have hids : d.ids = [] := by
    rw [ids, h]
    rfl
  unfold Dependencies.order settled
  rw [hids]
  rfl

end Dependencies

end BinarySchema
