/-
# What a walk notes, and the order that comes of it

A node depends on the ids that its children name (`Dependencies.dependsOn_walk`), each of which is a
node, a reference or known (`Dependencies.closed_walk`).  Whatever is noted is named by the root or
by a node that is noted (`Dependencies.noted_walk`).

Nodes are taken off a queue that holds just those whose dependencies have been taken already
(`Dependencies.Drained`).  So each node that is taken comes after all nodes that it depends on, and
a node stays only if it depends on one that stays (`Dependencies.drained_settled`).
-/
import BinarySchema.Proofs.Names

namespace BinarySchema

namespace Dependencies

variable {known : String → Bool} {owner : Option String} {d d' d'' : Dependencies} {s : Schema}

/-! ## Edges -/

/-- New nodes are noted behind the others; and what is noted as a dependency is that the owner
depends on the given ids, and each new node on the ids that its children name. -/
def Notes (owner : Option String) (names : String → Prop) (d d' : Dependencies) : Prop :=
  ∃ new, d'.nodes = d.nodes ++ new ∧ ∀ o id, (o, id) ∈ d'.edges ↔
    (o, id) ∈ d.edges ∨ owner = some o ∧ names id ∨ ∃ t, (o, t) ∈ new ∧ t.NamesBelow id

theorem mem_edges_addEdge {o id id' : String} : (o, id') ∈ (d.addEdge owner id).edges ↔
    (o, id') ∈ d.edges ∨ owner = some o ∧ id' = id := by
  rcases owner with _ | owner
  · simp [addEdge]
  · simp [addEdge, eq_comm]

theorem Notes.refl (d : Dependencies) : Notes owner (fun _ => False) d d :=
  ⟨[], by simp, by simp⟩

theorem Notes.addEdge (d : Dependencies) (id : String) :
    Notes owner (fun id' => id' = id) d (d.addEdge owner id) :=
  ⟨[], by simp [nodes_addEdge], by simp [mem_edges_addEdge]⟩

theorem Notes.congr {P Q : String → Prop} (h : Notes owner P d d') (hPQ : ∀ id, P id ↔ Q id) :
    Notes owner Q d d' := by
  obtain ⟨new, hnew, hedges⟩ := h
  exact ⟨new, hnew, fun o id => by rw [hedges, hPQ]⟩

theorem Notes.trans {P Q : String → Prop} (h : Notes owner P d d') (h' : Notes owner Q d' d'') :
    Notes owner (fun id => P id ∨ Q id) d d'' := by
  obtain ⟨new, hnew, hedges⟩ := h
  obtain ⟨new', hnew', hedges'⟩ := h'
  refine ⟨new ++ new', by rw [hnew', hnew, List.append_assoc], fun o id => ?_⟩
  simp only [hedges', hedges, List.mem_append, or_and_right, exists_or, and_or_left, or_assoc]
  exact or_congr_right (or_congr_right or_left_comm)

theorem notes_walkAll {schemas : List Schema}
    (h : ∀ s ∈ schemas, ∀ owner d, Notes owner (fun id => s.Names id) d (walk known owner s d))
    (owner : Option String) (d : Dependencies) :
    Notes owner (fun id => ∃ s ∈ schemas, s.Names id) d (walkAll known owner schemas d) := by
  induction schemas generalizing d with
  | nil => exact (Notes.refl d).congr (by simp)
  | cons s rest ih =>
    have hrest := ih (fun s hs => h s (List.mem_cons_of_mem _ hs)) (walk known owner s d)
    exact ((h s List.mem_cons_self owner d).trans hrest).congr (by simp)

/-- A walk notes that the owner depends on the ids that the schema names. -/
theorem notes_walk (known : String → Bool) (s : Schema) :
    ∀ owner d, Notes owner (fun id => s.Names id) d (walk known owner s d) := by
  induction s using walk_induction with
  | reference s r hs =>
    intro owner d
    rw [walk_reference hs]
    exact (Notes.addEdge d r).congr fun id => (Schema.names_of_reference hs).symm
  | anonymous s hs hid ih =>
    intro owner d
    rw [walk_anonymous hs hid]
    exact (notes_walkAll ih owner d).congr fun id => (Schema.names_of_anonymous hs hid).symm
  | named s i hs hid ih =>
    intro owner d
    by_cases hmet : known i ∨ i ∈ d.ids
    · rw [walk_met hs hid hmet]
      exact (Notes.addEdge d i).congr fun id => (Schema.names_of_id hs hid).symm
    · rw [walk_new hs hid (not_or.mp hmet).1 (not_or.mp hmet).2]
      obtain ⟨new, hnew, hedges⟩ := notes_walkAll ih (some i) ((d.addEdge owner i).addNode i s)
      refine ⟨(i, s) :: new, ?_, fun o id => ?_⟩
      · rw [hnew]
        simp [addNode, nodes_addEdge]
      · -- what the children name, they name as parts of the new node
        have hnode : (o, id) ∈ ((d.addEdge owner i).addNode i s).edges
            ↔ (o, id) ∈ d.edges ∨ owner = some o ∧ id = i := mem_edges_addEdge
        have hbelow : (∃ t, (o, t) ∈ (i, s) :: new ∧ t.NamesBelow id) ↔
            (some i = some o ∧ ∃ child ∈ s.children, child.Names id)
              ∨ ∃ t, (o, t) ∈ new ∧ t.NamesBelow id := by
          simp only [List.mem_cons, Prod.mk.injEq, or_and_right, exists_or, Option.some.injEq]
          refine or_congr_left ⟨?_, ?_⟩
          · rintro ⟨t, ⟨rfl, rfl⟩, h⟩
            exact ⟨rfl, h⟩
          · rintro ⟨rfl, h⟩
            exact ⟨s, ⟨rfl, rfl⟩, h⟩
        rw [hedges, hnode, hbelow, or_assoc]
        exact or_congr_right (or_congr_left (and_congr_right' (Schema.names_of_id hs hid).symm))

theorem dependsOn_iff {o id : String} : d.dependsOn o id ↔ (o, id) ∈ d.edges :=
  List.contains_iff_mem

/-- **Dependencies.**  A node of a tree depends on the ids that its children name. -/
theorem dependsOn_walk {o id : String} : (walk known none s {}).dependsOn o id ↔
    ∃ t, (o, t) ∈ (walk known none s {}).nodes ∧ t.NamesBelow id := by
  obtain ⟨new, hnew, hedges⟩ := notes_walk known s none {}
  rw [dependsOn_iff, hedges, hnew]
  simp

/-! ## Whatever a node depends on has been noted -/

/-- Each dependency is a node, a reference or known. -/
def Closed (known : String → Bool) (d : Dependencies) : Prop :=
  ∀ e ∈ d.edges, e.2 ∈ d.ids ∨ e.2 ∈ d.references ∨ known e.2

theorem ids_addEdge (d : Dependencies) (owner : Option String) (id : String) :
    (d.addEdge owner id).ids = d.ids := by
  rw [ids, nodes_addEdge, ids]

theorem ids_addNode (d : Dependencies) (id : String) (s : Schema) :
    (d.addNode id s).ids = d.ids ++ [id] := List.map_append

theorem Closed.addEdge (hd : Closed known d) {id : String} (hid : id ∈ d.ids ∨ known id) :
    Closed known (d.addEdge owner id) := by
  rintro ⟨o, id'⟩ he
  rw [ids_addEdge, references_addEdge]
  rcases mem_edges_addEdge.mp he with he | ⟨-, rfl⟩
  · exact hd _ he
  · exact hid.imp_right Or.inr

theorem Closed.addReference (hd : Closed known d) (id : String) :
    Closed known (d.addReference owner id) := by
  rintro ⟨o, id'⟩ he
  rw [ids, nodes_addReference, references_addReference, List.mem_append, List.mem_singleton]
  rcases mem_edges_addEdge.mp he with he | ⟨-, rfl⟩
  · rcases hd _ he with h | h | h
    · exact Or.inl h
    · exact Or.inr (Or.inl (Or.inl h))
    · exact Or.inr (Or.inr h)
  · exact Or.inr (Or.inl (Or.inr rfl))

theorem Closed.addNode (hd : Closed known d) (id : String) (s : Schema) :
    Closed known ((d.addEdge owner id).addNode id s) := by
  rintro ⟨o, id'⟩ he
  show _ ∨ id' ∈ (d.addEdge owner id).references ∨ _
  rw [ids_addNode, ids_addEdge, references_addEdge, List.mem_append, List.mem_singleton]
  rcases mem_edges_addEdge.mp he with he | ⟨-, rfl⟩
  · exact (hd _ he).imp_left Or.inl
  · exact Or.inl (Or.inr rfl)

theorem closed_walk (s : Schema) :
    ∀ owner d, Closed known d → Closed known (walk known owner s d) := by
  have hall : ∀ schemas : List Schema, (∀ s ∈ schemas, ∀ owner d, Closed known d →
      Closed known (walk known owner s d)) → ∀ owner d, Closed known d →
      Closed known (walkAll known owner schemas d) := fun schemas h owner d hd =>
    List.foldlRecOn (motive := Closed known) schemas _ hd fun d hd s hs => h s hs owner d hd
  induction s using walk_induction with
  | reference s r hs =>
    intro owner d hd
    rw [walk_reference hs]
    exact hd.addReference r
  | anonymous s hs hid ih =>
    intro owner d hd
    rw [walk_anonymous hs hid]
    exact hall _ ih owner d hd
  | named s i hs hid ih =>
    intro owner d hd
    by_cases hmet : known i ∨ i ∈ d.ids
    · rw [walk_met hs hid hmet]
      exact hd.addEdge hmet.symm
    · rw [walk_new hs hid (not_or.mp hmet).1 (not_or.mp hmet).2]
      exact hall _ ih _ _ (hd.addNode i s)

/-- All that a settled schema names is known. -/
theorem Settled.names (hs : Settled known s) {id : String} (h : s.Names id) : known id := by
  induction hs with
  | reference hs hknown =>
    rw [(Schema.names_of_reference hs).mp h]
    exact hknown
  | anonymous hs hid hchildren ih =>
    obtain ⟨child, hchild, h⟩ := (Schema.names_of_anonymous hs hid).mp h
    exact ih child hchild h
  | named hs hid hknown =>
    rw [(Schema.names_of_id hs hid).mp h]
    exact hknown

/-! ## Whatever has been noted is named -/

/-- What has been noted satisfies `R`. -/
def Satisfies (R : String → Prop) (d : Dependencies) : Prop :=
  (∀ id ∈ d.ids, R id) ∧ ∀ id ∈ d.references, R id

theorem noted_walkAll {R : String → Prop} {schemas : List Schema}
    (h : ∀ s ∈ schemas, ∀ owner d, (∀ id, s.Names id → R id) →
      (∀ node ∈ (walk known owner s d).nodes, R node.1 → ∀ id, node.2.NamesBelow id → R id) →
      Satisfies R d → Satisfies R (walk known owner s d))
    (hnames : ∀ s ∈ schemas, ∀ id, s.Names id → R id) (owner : Option String) (d : Dependencies)
    (hnodes : ∀ node ∈ (walkAll known owner schemas d).nodes, R node.1 →
      ∀ id, node.2.NamesBelow id → R id)
    (hd : Satisfies R d) : Satisfies R (walkAll known owner schemas d) := by
  induction schemas generalizing d with
  | nil => exact hd
  | cons s rest ih =>
    obtain ⟨new, hnew, -⟩ := notes_walkAll (fun s (_ : s ∈ rest) => notes_walk known s) owner
      (walk known owner s d)
    have hfirst := h s List.mem_cons_self owner d (hnames s List.mem_cons_self)
      (fun node hnode => hnodes node (by
        show node ∈ (walkAll known owner rest (walk known owner s d)).nodes
        rw [hnew]
        exact List.mem_append_left _ hnode)) hd
    exact ih (fun s hs => h s (List.mem_cons_of_mem _ hs))
      (fun s hs => hnames s (List.mem_cons_of_mem _ hs)) _ hnodes hfirst

/-- What holds of the ids that the schema names, and passes from each node to the ids that its
children name, holds of all that a walk notes. -/
theorem noted_walk {R : String → Prop} (s : Schema) : ∀ owner d, (∀ id, s.Names id → R id) →
    (∀ node ∈ (walk known owner s d).nodes, R node.1 → ∀ id, node.2.NamesBelow id → R id) →
    Satisfies R d → Satisfies R (walk known owner s d) := by
  induction s using walk_induction with
  | reference s r hs =>
    intro owner d hnames _ hd
    rw [walk_reference hs, Satisfies, ids, nodes_addReference, references_addReference]
    refine ⟨hd.1, List.forall_mem_append.mpr ⟨hd.2, ?_⟩⟩
    exact List.forall_mem_singleton.mpr (hnames r (.reference hs))
  | anonymous s hs hid ih =>
    intro owner d hnames hnodes hd
    rw [walk_anonymous hs hid] at hnodes ⊢
    exact noted_walkAll ih (fun child hchild id h => hnames id (.child hs hid hchild h)) owner d
      hnodes hd
  | named s i hs hid ih =>
    intro owner d hnames hnodes hd
    have hi : R i := hnames i (.id hs hid)
    by_cases hmet : known i ∨ i ∈ d.ids
    · rw [walk_met hs hid hmet, Satisfies, ids_addEdge, references_addEdge]
      exact hd
    · rw [walk_new hs hid (not_or.mp hmet).1 (not_or.mp hmet).2] at hnodes ⊢
      obtain ⟨new, hnew, -⟩ := notes_walkAll
        (fun child (_ : child ∈ s.children) => notes_walk known child) (some i)
        ((d.addEdge owner i).addNode i s)
      refine noted_walkAll ih (fun child hchild id h => ?_) _ _ hnodes ?_
      · refine hnodes (i, s) ?_ hi id ⟨child, hchild, h⟩
        rw [hnew]
        exact List.mem_append_left _ (List.mem_append_right _ (List.mem_singleton_self _))
      · rw [Satisfies, ids_addNode, ids_addEdge]
        show _ ∧ ∀ id ∈ (d.addEdge owner i).references, R id
        rw [references_addEdge]
        exact ⟨List.forall_mem_append.mpr ⟨hd.1, List.forall_mem_singleton.mpr hi⟩, hd.2⟩

/-! ## Taking nodes off a queue -/

theorem isReady_iff {done : List String} {o : String} : d.isReady done o ↔
    ∀ id ∈ d.ids, d.dependsOn o id → id ∈ done := by
  simp only [isReady, List.all_eq_true, Bool.or_eq_true, Bool.not_eq_true', List.contains_iff_mem]
  refine forall₂_congr fun id _ => ?_
  rw [← Bool.not_eq_true, ← imp_iff_not_or]

/-- Of the nodes, those are done or in the queue whose dependencies are done, each once; and
what is done has been done in an order. -/
structure Drained (d : Dependencies) (queue done : List String) : Prop where
  nodup : (done ++ queue).Nodup
  mem (o : String) : o ∈ done ++ queue ↔ o ∈ d.ids ∧ d.isReady done o
  ordered (earlier later : List String) (o : String) :
    done = earlier ++ o :: later → d.isReady earlier o

theorem drained_nil (hd : d.ids.Nodup) : Drained d (d.ids.filter (d.isReady [])) [] where
  nodup := hd.filter _
  mem o := by simp
  ordered earlier later o h := by simp at h

/-- **One step.**  The node at the head of the queue is done, and those join the queue whose last
dependency it was. -/
theorem Drained.step {queue done : List String} {o : String} (h : Drained d (o :: queue) done)
    (hd : d.ids.Nodup) : Drained d (queue ++ d.ids.filter fun o' =>
      d.dependsOn o' o && d.isReady (done ++ [o]) o') (done ++ [o]) := by
  have ho : o ∈ d.ids ∧ d.isReady done o := (h.mem o).mp (by simp)
  have hnodup := h.nodup
  rw [List.append_cons] at hnodup
  have hnew : o ∉ done := by
    rw [List.nodup_append', List.nodup_append'] at hnodup
    exact fun hmem => List.disjoint_right.mp hnodup.1.2.2 (List.mem_singleton_self o) hmem
  -- a node that depends on this one was not ready before
  have hwaiting : ∀ o', d.dependsOn o' o → ¬ d.isReady done o' :=
    fun o' hdep hready => hnew (isReady_iff.mp hready o ho.1 hdep)
  have hmore : ∀ o', d.isReady done o' → d.isReady (done ++ [o]) o' := fun o' hready =>
    isReady_iff.mpr fun id hid hdep => List.mem_append_left _ (isReady_iff.mp hready id hid hdep)
  refine ⟨?_, fun o' => ?_, fun earlier later o' heq => ?_⟩
  · rw [← List.append_assoc]
    refine hnodup.append (hd.filter _) fun o' hold hreleased => ?_
    rw [← List.append_cons, h.mem] at hold
    rw [List.mem_filter, Bool.and_eq_true] at hreleased
    exact hwaiting o' hreleased.2.1 hold.2
  · rw [← List.append_assoc, List.mem_append, ← List.append_cons, h.mem, List.mem_filter,
      Bool.and_eq_true]
    constructor
    · rintro (⟨hmem, hready⟩ | ⟨hmem, -, hready⟩)
      · exact ⟨hmem, hmore o' hready⟩
      · exact ⟨hmem, hready⟩
    · rintro ⟨hmem, hready⟩
      by_cases hdep : d.dependsOn o' o
      · exact Or.inr ⟨hmem, hdep, hready⟩
      · refine Or.inl ⟨hmem, isReady_iff.mpr fun id hid hdep' => ?_⟩
        rcases List.mem_append.mp (isReady_iff.mp hready id hid hdep') with hdone | hdone
        · exact hdone
        · rw [List.mem_singleton.mp hdone] at hdep'
          exact absurd hdep' hdep
  · rcases List.eq_nil_or_concat later with rfl | ⟨later, last, rfl⟩
    · obtain ⟨rfl, hlast⟩ := List.append_inj' heq rfl
      rw [← List.singleton_inj.mp hlast]
      exact ho.2
    · rw [List.concat_eq_append, ← List.cons_append, ← List.append_assoc] at heq
      exact h.ordered earlier later o' (List.append_inj' heq rfl).1

theorem Drained.length_le {queue done : List String} (h : Drained d queue done) :
    done.length + queue.length ≤ d.ids.length := by
  rw [← List.length_append]
  exact (h.nodup.subperm fun o ho => ((h.mem o).mp ho).1).length_le

/-- Taking as many nodes as there are leaves none in the queue. -/
theorem Drained.drain (hd : d.ids.Nodup) {fuel : Nat} {queue done : List String}
    (h : Drained d queue done) (hfuel : d.ids.length ≤ done.length + fuel) :
    Drained d [] (d.drain fuel queue done) := by
  induction fuel generalizing queue done with
  | zero =>
    have hqueue : queue = [] := List.eq_nil_of_length_eq_zero (by have := h.length_le; omega)
    rw [hqueue] at h
    exact h
  | succ fuel ih =>
    rcases queue with _ | ⟨o, queue⟩
    · exact h
    · refine ih (h.step hd) ?_
      rw [List.length_append, List.length_singleton]
      omega

/-- **The order of nodes.**  Those nodes have a place in the order whose dependencies have one, and
each comes after them. -/
theorem drained_settled (hd : d.ids.Nodup) : Drained d [] d.settled :=
  (drained_nil hd).drain hd (by simp)

theorem mem_settled_iff (hd : d.ids.Nodup) {o : String} :
    o ∈ d.settled ↔ o ∈ d.ids ∧ d.isReady d.settled o := by
  have hmem := (drained_settled hd).mem o
  rw [List.append_nil] at hmem
  exact hmem

/-! ## Nodes without a place -/

/-- The nodes that have no place in the order. -/
def stuck (d : Dependencies) : List String := d.ids.filter fun id => !d.settled.contains id

theorem mem_stuck_iff {o : String} : o ∈ d.stuck ↔ o ∈ d.ids ∧ o ∉ d.settled := by
  simp [stuck]

theorem stuck_eq_nil_iff : d.stuck = [] ↔ ∀ o ∈ d.ids, o ∈ d.settled := by
  simp [stuck, List.filter_eq_nil_iff]

/-- There is an order if every node has a place in it. -/
theorem order_of_stuck_eq_nil (h : d.stuck = []) : d.order = .ok d.settled := by
  unfold order
  dsimp only
  rw [← stuck, h]

/-- Where there is none, the nodes without a place are reported. -/
theorem order_of_stuck_ne_nil (h : d.stuck ≠ []) :
    d.order = .error (.cycle (d.stuck.mergeSort fun a b => decide (a ≤ b))) := by
  unfold order
  dsimp only
  rw [← stuck]
  split
  · next hnone => exact absurd hnone h
  · rfl

theorem order_eq_ok_iff {order : List String} :
    d.order = .ok order ↔ order = d.settled ∧ ∀ o ∈ d.ids, o ∈ d.settled := by
  rw [← stuck_eq_nil_iff]
  by_cases h : d.stuck = []
  · rw [order_of_stuck_eq_nil h, Except.ok.injEq, eq_comm, and_iff_left h]
  · simp [order_of_stuck_ne_nil h, h]

theorem order_eq_error_iff {e : CompileError} : d.order = .error e
    ↔ d.stuck ≠ [] ∧ e = .cycle (d.stuck.mergeSort fun a b => decide (a ≤ b)) := by
  by_cases h : d.stuck = []
  · simp [order_of_stuck_eq_nil h, h]
  · rw [order_of_stuck_ne_nil h, Except.error.injEq, eq_comm, and_iff_right h]

end Dependencies

end BinarySchema
