/-
# Documents and their drafts

A document in which the members of each object have names of their own (`Json.Distinct`) is what its
draft stands for (`Json.Distinct.toJson?_draft`); and what any draft stands for is such a document
(`Json.Draft.toJson?_distinct`), since of two members of one name only one is kept.
-/
import BinarySchema.Proofs.Table
import BinarySchema.Json

namespace BinarySchema

namespace Json

variable {room : Room} {items : List Json} {members : List (String × Json)}

/-- The members of every object in the document have names of their own. -/
inductive Distinct : Json → Prop
  | null : Distinct .null
  | bool (b : Bool) : Distinct (.bool b)
  | number (n : Number) : Distinct (.number n)
  | text (s : String) : Distinct (.text s)
  | list {items : List Json} (hitems : ∀ j ∈ items, Distinct j) : Distinct (.list items)
  | object {members : List (String × Json)} (hnames : (members.map (·.1)).Nodup)
      (hmembers : ∀ m ∈ members, Distinct m.2) : Distinct (.object members)

/-! ## From a document to its draft and back -/

theorem itemsToJson?_drafts (h : ∀ j ∈ items, j.draft.toJson? none = some j) :
    Draft.itemsToJson? none (drafts items) = some items := by
  induction items with
  | nil => rfl
  | cons j rest ih =>
    rw [drafts, Draft.itemsToJson?, h j List.mem_cons_self,
      ih fun j hj => h j (List.mem_cons_of_mem _ hj)]
    rfl

theorem membersToJson?_memberDrafts (h : ∀ m ∈ members, m.2.draft.toJson? none = some m.2) :
    Draft.membersToJson? none (memberDrafts members) = some members := by
  induction members with
  | nil => rfl
  | cons m rest ih =>
    rw [memberDrafts, Draft.membersToJson?, h m List.mem_cons_self,
      ih fun m hm => h m (List.mem_cons_of_mem _ hm)]
    rfl

/-- **Documents.**  A document with distinct members is what its draft stands for. -/
theorem Distinct.toJson?_draft {j : Json} (h : j.Distinct) : j.draft.toJson? none = some j := by
  induction h with
  | list hitems ih =>
    rw [draft, Draft.toJson?]
    show (Draft.itemsToJson? none _ >>= _) = _
    rw [itemsToJson?_drafts ih]
    rfl
  | @object members hnames hmembers ih =>
    have hself : Table.ofList members = members := Table.ofList_eq_self hnames
    rw [draft, Draft.toJson?]
    show (Draft.membersToJson? none _ >>= _) = _
    rw [membersToJson?_memberDrafts ih]
    exact congrArg (fun table => some (Json.object table)) hself
  | _ => rfl

theorem isNull_draft {j : Json} : j.draft.isNull ↔ j = .null := by
  cases j <;> simp [draft, Draft.isNull]

/-! ## What drafts stand for -/

theorem Draft.isNull_of_toJson? {d : Draft} (h : d.toJson? room = some .null) : d.isNull := by
  cases d with
  | null => rfl
  | bool b => cases h
  | number n => simp [toJson?] at h
  | text s => simp [toJson?] at h
  | list ds | object ms =>
    rw [toJson?] at h
    obtain ⟨_, -, h⟩ := Option.bind_eq_some_iff.mp h
    obtain ⟨_, -, h⟩ := Option.bind_eq_some_iff.mp h
    cases h

/-- **Drafts.**  What a draft stands for has distinct members. -/
theorem Draft.toJson?_distinct (room : Room) (d : Draft) :
    ∀ j, d.toJson? room = some j → j.Distinct := by
  -- along the reader: drafts, members, items
  refine toJson?.induct (fun room d => ∀ j, toJson? room d = some j → j.Distinct)
    (fun room ms => ∀ members, membersToJson? room ms = some members →
      ∀ m ∈ members, m.2.Distinct)
    (fun room ds => ∀ items, itemsToJson? room ds = some items → ∀ j ∈ items, j.Distinct)
    ?null ?bool ?number ?text ?list ?object ?itemsNil ?itemsCons ?membersNil ?membersCons room d
  case null =>
    rintro room _ ⟨⟩
    exact .null
  case bool =>
    rintro room b _ ⟨⟩
    exact .bool b
  case number =>
    intro room n j h
    obtain ⟨n, -, rfl⟩ := Option.map_eq_some_iff.mp h
    exact .number n
  case text =>
    intro room s j h
    obtain ⟨s, -, rfl⟩ := Option.map_eq_some_iff.mp h
    exact .text s
  case list =>
    intro room ds ih j h
    rw [toJson?] at h
    obtain ⟨inner, -, h⟩ := Option.bind_eq_some_iff.mp h
    obtain ⟨items, hitems, h⟩ := Option.bind_eq_some_iff.mp h
    cases h
    exact .list (ih inner items hitems)
  case object =>
    intro room ms ih j h
    rw [toJson?] at h
    obtain ⟨inner, -, h⟩ := Option.bind_eq_some_iff.mp h
    obtain ⟨members, hmembers, h⟩ := Option.bind_eq_some_iff.mp h
    cases h
    refine .object (Table.nodup_keys_ofList members) ?_
    exact Table.forall_insertAll (t := []) (fun _ h => absurd h List.not_mem_nil)
      (ih inner members hmembers)
  case itemsNil =>
    rintro room _ ⟨⟩ j hj
    exact absurd hj List.not_mem_nil
  case itemsCons =>
    intro room d rest hfirst ih items h
    rw [itemsToJson?] at h
    obtain ⟨first, hread, h⟩ := Option.bind_eq_some_iff.mp h
    obtain ⟨others, hothers, h⟩ := Option.bind_eq_some_iff.mp h
    cases h
    exact List.forall_mem_cons.mpr ⟨hfirst first hread, ih others hothers⟩
  case membersNil =>
    rintro room _ ⟨⟩ m hm
    exact absurd hm List.not_mem_nil
  case membersCons =>
    intro room m rest hfirst ih members h
    rw [membersToJson?] at h
    obtain ⟨name, -, h⟩ := Option.bind_eq_some_iff.mp h
    obtain ⟨first, hread, h⟩ := Option.bind_eq_some_iff.mp h
    obtain ⟨others, hothers, h⟩ := Option.bind_eq_some_iff.mp h
    cases h
    exact List.forall_mem_cons.mpr ⟨hfirst first hread, ih others hothers⟩

end Json

end BinarySchema
