/-
# Cycles of named schemas

The nodes of a tree of schemas have an order in which each comes after its dependencies just where no
chain of dependencies leads back to where it began (`Dependencies.order_exact`).

One direction is an induction along the order: what comes before a node reaches no cycle, so neither
does the node (`not_reachesCycle_of_mem_settled`).  For the other, each node that has no place in the
order depends on one that has none either, and since there are finitely many, whoever goes on along
such dependencies comes to a node twice (`exists_cycle_of_forall_mem`).  So the nodes that are
reported are those from which a cycle can be reached, and not only those that lie on one.
-/
import BinarySchema.Proofs.Order

namespace BinarySchema

open Relation

/-! ## Going on and on -/

section

variable {α : Type} {r : α → α → Prop} {f : α → α}

theorem reflTransGen_iterate (hf : ∀ a, r a (f a)) (a : α) (n : Nat) :
    ReflTransGen r a (f^[n] a) := by
  induction n with
  | zero => exact .refl
  | succ n ih =>
    rw [Function.iterate_succ_apply']
    exact ih.tail (hf _)

/-- Where each of finitely many elements leads to another one of them, every one of them leads to a
cycle. -/
theorem exists_cycle_of_forall_mem {l : List α} (h : ∀ a ∈ l, ∃ b ∈ l, r a b) {a : α}
    (ha : a ∈ l) : ∃ c, ReflTransGen r a c ∧ TransGen r c c := by
  choose! next hmem hnext using h
  -- the step from one of the elements to the next, which is one of them again
  let step : {x // x ∈ l} → {x // x ∈ l} := fun x => ⟨next x, hmem x x.2⟩
  have hstep : ∀ x : {x // x ∈ l}, r x (step x) := fun x => hnext x x.2
  have hpath : ∀ (x : {x // x ∈ l}) (n : Nat), ReflTransGen r x (step^[n] x) := by
    intro x n
    have hsteps : ReflTransGen (fun x y : {x // x ∈ l} => r x y) x (step^[n] x) :=
      reflTransGen_iterate hstep x n
    exact hsteps.lift Subtype.val fun _ _ hxy => hxy
  have hfinite : Finite {x // x ∈ l} := l.finite_toSet
  obtain ⟨i, j, hne, heq⟩ := Finite.exists_ne_map_eq_of_infinite
    fun n : Nat => step^[n] ⟨a, ha⟩
  wlog hij : i < j generalizing i j
  · exact this j i hne.symm heq.symm (by omega)
  obtain ⟨k, rfl⟩ : ∃ k, j = k + 1 + i := ⟨j - i - 1, by omega⟩
  refine ⟨step^[i] ⟨a, ha⟩, hpath ⟨a, ha⟩ i, ?_⟩
  rw [Function.iterate_add_apply, Function.iterate_succ_apply] at heq
  have hback := hpath (step (step^[i] ⟨a, ha⟩)) k
  rw [← heq] at hback
  exact .head' (hstep _) hback

end

namespace Dependencies

variable {known : String → Bool} {root : Schema} {d : Dependencies} {o id : String}

/-! ## Nodes that wait for one another -/

/-- A node depends on another one, which its children name. -/
def WaitsFor (d : Dependencies) (o id : String) : Prop :=
  id ∈ d.ids ∧ ∃ s, (o, s) ∈ d.nodes ∧ s.NamesBelow id

/-- A chain of dependencies leads from the node to one that depends on itself by another chain. -/
def ReachesCycle (d : Dependencies) (o : String) : Prop :=
  ∃ c, ReflTransGen d.WaitsFor o c ∧ TransGen d.WaitsFor c c

theorem WaitsFor.mem_ids (h : d.WaitsFor o id) : o ∈ d.ids := by
  obtain ⟨-, s, hnode, -⟩ := h
  exact List.mem_map_of_mem (f := fun node : String × Schema => node.1) hnode

/-- A node reaches a cycle if one of its dependencies does. -/
theorem reachesCycle_iff : d.ReachesCycle o ↔ ∃ id, d.WaitsFor o id ∧ d.ReachesCycle id := by
  constructor
  · rintro ⟨c, hpath, hcycle⟩
    rcases hpath.cases_head with rfl | ⟨id, hwaits, hpath⟩
    · -- the node lies on the cycle itself
      obtain ⟨id, hwaits, hback⟩ := TransGen.head'_iff.mp hcycle
      exact ⟨id, hwaits, o, hback, hcycle⟩
    · exact ⟨id, hwaits, c, hpath, hcycle⟩
  · rintro ⟨id, hwaits, c, hpath, hcycle⟩
    exact ⟨c, hpath.head hwaits, hcycle⟩

theorem ReachesCycle.mem_ids (h : d.ReachesCycle o) : o ∈ d.ids := by
  obtain ⟨id, hwaits, -⟩ := reachesCycle_iff.mp h
  exact hwaits.mem_ids

/-! ## Nodes without a place -/

section

variable (h : ofSchema known root = .ok d)

include h

theorem nodup_ids : d.ids.Nodup := (ofSchema_meets h).fresh.1

theorem waitsFor_iff : d.WaitsFor o id ↔ id ∈ d.ids ∧ d.dependsOn o id := by
  obtain ⟨rfl, -⟩ := ofSchema_eq_ok.mp h
  rw [WaitsFor, dependsOn_walk]

theorem isReady_iff_waitsFor {done : List String} :
    d.isReady done o ↔ ∀ id, d.WaitsFor o id → id ∈ done := by
  simp only [isReady_iff, waitsFor_iff h, and_imp]

/-- A node with a place in the order comes after its dependencies. -/
theorem mem_of_waitsFor {earlier later : List String} (heq : d.settled = earlier ++ o :: later)
    (hwaits : d.WaitsFor o id) : id ∈ earlier :=
  (isReady_iff_waitsFor h).mp ((drained_settled (nodup_ids h)).ordered earlier later o heq) id hwaits

/-- **Soundness.**  A node with a place in the order reaches no cycle. -/
theorem not_reachesCycle_of_mem_settled (ho : o ∈ d.settled) : ¬ d.ReachesCycle o := by
  obtain ⟨earlier, later, heq⟩ := List.append_of_mem ho
  induction hn : earlier.length using Nat.strong_induction_on generalizing o earlier later with
  | _ n ih =>
    intro hcycle
    obtain ⟨id, hwaits, hid⟩ := reachesCycle_iff.mp hcycle
    obtain ⟨before, between, rfl⟩ := List.append_of_mem (mem_of_waitsFor h heq hwaits)
    have hlt : before.length < n := by
      rw [← hn, List.length_append, List.length_cons]
      omega
    rw [List.append_assoc] at heq
    have hmem : id ∈ d.settled := by
      rw [heq]
      exact List.mem_append_right _ List.mem_cons_self
    exact ih _ hlt hmem before _ heq rfl hid

/-- A node without a place depends on another one without a place. -/
theorem exists_waitsFor_of_mem_stuck (ho : o ∈ d.stuck) : ∃ id ∈ d.stuck, d.WaitsFor o id := by
  obtain ⟨hids, hplace⟩ := mem_stuck_iff.mp ho
  have hready : ¬ d.isReady d.settled o :=
    fun hready => hplace ((mem_settled_iff (nodup_ids h)).mpr ⟨hids, hready⟩)
  rw [isReady_iff_waitsFor h, not_forall] at hready
  obtain ⟨id, hid⟩ := hready
  obtain ⟨hwaits, hid⟩ := Classical.not_imp.mp hid
  exact ⟨id, mem_stuck_iff.mpr ⟨hwaits.1, hid⟩, hwaits⟩

/-- **The nodes without a place** are those that reach a cycle. -/
theorem mem_stuck_iff_reachesCycle : o ∈ d.stuck ↔ d.ReachesCycle o := by
  constructor
  · exact exists_cycle_of_forall_mem fun o ho => exists_waitsFor_of_mem_stuck h ho
  · intro hcycle
    exact mem_stuck_iff.mpr
      ⟨hcycle.mem_ids, fun hplace => not_reachesCycle_of_mem_settled h hplace hcycle⟩

theorem exists_order_iff : (∃ order, d.order = .ok order) ↔ ∀ id, ¬ TransGen d.WaitsFor id id := by
  have hsettled : (∃ order, d.order = .ok order) ↔ d.stuck = [] := by
    rw [stuck_eq_nil_iff]
    simp [order_eq_ok_iff]
  rw [hsettled, List.eq_nil_iff_forall_not_mem]
  constructor
  · intro hnone id hcycle
    exact hnone id ((mem_stuck_iff_reachesCycle h).mpr ⟨id, .refl, hcycle⟩)
  · intro hnone id hid
    obtain ⟨c, -, hcycle⟩ := (mem_stuck_iff_reachesCycle h).mp hid
    exact hnone c hcycle

/-- Every node has a place in an order, and has it once. -/
theorem perm_of_order {order : List String} (horder : d.order = .ok order) :
    order.Perm d.ids := by
  obtain ⟨rfl, hall⟩ := order_eq_ok_iff.mp horder
  have hnodup := (drained_settled (nodup_ids h)).nodup
  rw [List.append_nil] at hnodup
  refine (List.perm_ext_iff_of_nodup hnodup (nodup_ids h)).mpr fun o => ⟨fun ho => ?_, hall o⟩
  exact ((mem_settled_iff (nodup_ids h)).mp ho).1

/-- What is reported is in ascending order, and nothing is reported twice. -/
theorem pairwise_lt_stuck : (d.stuck.mergeSort fun a b => decide (a ≤ b)).Pairwise (· < ·) := by
  have hsorted : (d.stuck.mergeSort fun a b => decide (a ≤ b)).Pairwise (· ≤ ·) := by
    refine (List.pairwise_mergeSort ?_ ?_ d.stuck).imp fun hab => of_decide_eq_true hab
    · simp only [decide_eq_true_eq]
      exact fun a b c hab hbc => le_trans hab hbc
    · simp only [Bool.or_eq_true, decide_eq_true_eq]
      exact fun a b => le_total a b
  have hnodup : (d.stuck.mergeSort fun a b => decide (a ≤ b)).Nodup :=
    ((nodup_ids h).filter _).perm (List.mergeSort_perm _ _).symm
  exact (hsorted.and hnodup).imp fun hab => lt_of_le_of_ne hab.1 hab.2

end

/-- **Order and cycles.**  The nodes of a tree of schemas have an order just where no node depends on
itself by a chain of dependencies.  An order has every node once, each after all its dependencies.
Where there is none, all those nodes are reported, in ascending order, from which a cycle can be
reached. -/
theorem order_exact (h : ofSchema known root = .ok d) :
    ((∃ order, d.order = .ok order) ↔ ∀ id, ¬ TransGen d.WaitsFor id id)
    ∧ (∀ order, d.order = .ok order → order.Perm d.ids ∧ order.Nodup
      ∧ ∀ earlier o later, order = earlier ++ o :: later →
        ∀ id, d.WaitsFor o id → id ∈ earlier)
    ∧ ∀ e, d.order = .error e → ∃ ids, e = .cycle ids ∧ ids.Pairwise (· < ·)
      ∧ ∀ id, id ∈ ids ↔ d.ReachesCycle id := by
  refine ⟨exists_order_iff h, fun order horder => ?_, fun e he => ?_⟩
  · have hperm := perm_of_order h horder
    refine ⟨hperm, hperm.nodup_iff.mpr (nodup_ids h), fun earlier o later heq id hwaits => ?_⟩
    obtain ⟨rfl, -⟩ := order_eq_ok_iff.mp horder
    exact mem_of_waitsFor h heq hwaits
  · obtain ⟨-, rfl⟩ := order_eq_error_iff.mp he
    refine ⟨_, rfl, pairwise_lt_stuck h, fun id => ?_⟩
    rw [List.mem_mergeSort]
    exact mem_stuck_iff_reachesCycle h

/-- Two schemas refer to one another and a third one to the first of them.  The three are reported;
the fourth one is not. -/
theorem order_exact_crew :
    let root : Schema := { properties := [
      ("ship", { id := some "Ship", properties := [("captain", .referTo "Person")] }),
      ("captain", { id := some "Person", properties := [("home", .referTo "Ship")] }),
      ("fleet", { id := some "Fleet", items := some (.referTo "Ship") }),
      ("port", { id := some "Port" })] }
    let d : Dependencies := walk (fun _ => false) none root {}
    ofSchema (fun _ => false) root = .ok d
      ∧ d.order = .error (.cycle ["Fleet", "Person", "Ship"])
      ∧ d.ReachesCycle "Fleet" ∧ ¬ d.ReachesCycle "Port" := by
  intro root d
  have hbuilt : ofSchema (fun _ => false) root = .ok d := by cbv
  have hstuck : d.stuck = ["Ship", "Person", "Fleet"] := by decide +kernel
  have horder : d.order = .error (.cycle ["Fleet", "Person", "Ship"]) := by
    refine order_eq_error_iff.mpr ⟨by simp [hstuck], ?_⟩
    simp [hstuck, List.mergeSort]
  obtain ⟨ids, heq, -, hcycle⟩ := (order_exact hbuilt).2.2 _ horder
  obtain rfl : ["Fleet", "Person", "Ship"] = ids := by
    rw [CompileError.cycle.injEq] at heq
    exact heq
  exact ⟨hbuilt, horder, (hcycle "Fleet").mp (by decide), fun h => absurd ((hcycle "Port").mpr h)
    (by decide)⟩

end Dependencies

end BinarySchema
