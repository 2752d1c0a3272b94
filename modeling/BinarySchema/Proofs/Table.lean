/-
# Tables

What `Table.insert` does to the keys and to what is found, and the same for many entries in turn
(`Table.insertAll`).  A table whose keys are distinct is told by its keys and by what is found under
them (`Table.ext`), so inserting the same entries once more changes nothing
(`Table.insertAll_insertAll`).
-/
import Mathlib
import BinarySchema.Table

namespace BinarySchema

namespace Table

/-- Inserts entries in turn. -/
def insertAll {κ α : Type} [BEq κ] (t : Table κ α) (entries : List (κ × α)) : Table κ α :=
  entries.foldl (fun t e => t.insert e.1 e.2) t

theorem keys_cons {κ α : Type} (e : κ × α) (t : Table κ α) : keys (e :: t) = e.1 :: t.keys := rfl

variable {κ α : Type} [BEq κ] {t u : Table κ α} {entries : List (κ × α)} {P : α → Prop}

/-! ## Values -/

/-- What holds of the values of a table and of a new value holds after that has been inserted. -/
theorem forall_insert (ht : ∀ e ∈ t, P e.2) {v : α} (hv : P v) (k : κ) :
    ∀ e ∈ t.insert k v, P e.2 := by
  induction t with
  | nil =>
    intro e he
    rw [List.mem_singleton.mp he]
    exact hv
  | cons entry rest ih =>
    obtain ⟨k', v'⟩ := entry
    have hhead : P v' := ht (k', v') List.mem_cons_self
    have hrest : ∀ e ∈ rest, P e.2 := fun e he => ht e (List.mem_cons_of_mem _ he)
    intro e he
    rw [insert] at he
    split_ifs at he with hkey
    · rcases List.mem_cons.mp he with rfl | he
      · exact hv
      · exact hrest e he
    · rcases List.mem_cons.mp he with rfl | he
      · exact hhead
      · exact ih hrest e he

theorem forall_insertAll (ht : ∀ e ∈ t, P e.2) (hentries : ∀ e ∈ entries, P e.2) :
    ∀ e ∈ t.insertAll entries, P e.2 := by
  induction entries generalizing t with
  | nil => exact ht
  | cons entry rest ih =>
    exact ih (forall_insert ht (hentries entry List.mem_cons_self) entry.1)
      fun e he => hentries e (List.mem_cons_of_mem _ he)

theorem insertAll_append (t : Table κ α) (xs ys : List (κ × α)) :
    t.insertAll (xs ++ ys) = (t.insertAll xs).insertAll ys :=
  List.foldl_append

theorem find?_cons (e : κ × α) (t : Table κ α) (k : κ) :
    find? (e :: t) k = if k == e.1 then some e.2 else t.find? k := by
  obtain ⟨k', v⟩ := e
  rw [find?, List.lookup_cons]
  cases k == k' <;> rfl

/-- What is found in a table is one of its values. -/
theorem of_find? (ht : ∀ e ∈ t, P e.2) {k : κ} {v : α} (h : t.find? k = some v) : P v := by
  induction t with
  | nil => cases h
  | cons entry rest ih =>
    rw [find?_cons] at h
    split_ifs at h
    · cases h
      exact ht entry List.mem_cons_self
    · exact ih (fun e he => ht e (List.mem_cons_of_mem _ he)) h

variable [LawfulBEq κ] {k k' : κ} {v : α}

/-! ## Keys -/

theorem hasKey_iff : t.hasKey k ↔ k ∈ t.keys := by
  rw [hasKey, keys, List.any_eq_true, List.mem_map]
  simp only [beq_iff_eq]

theorem find?_eq_none_iff : t.find? k = none ↔ k ∉ t.keys := by
  induction t with
  | nil => exact ⟨fun _ => List.not_mem_nil, fun _ => rfl⟩
  | cons entry rest ih =>
    rw [find?_cons, keys_cons, List.mem_cons, not_or, ← ih]
    split_ifs with heq
    · simp [beq_iff_eq.mp heq]
    · exact ⟨fun h => ⟨fun hk => heq (beq_iff_eq.mpr hk), h⟩, fun h => h.2⟩

theorem isSome_find?_iff : (t.find? k).isSome ↔ k ∈ t.keys := by
  rw [Option.isSome_iff_ne_none, ne_eq, find?_eq_none_iff, not_not]

/-- In a table with distinct keys, each entry is found. -/
theorem find?_eq_some_iff (ht : t.keys.Nodup) : t.find? k = some v ↔ (k, v) ∈ t := by
  induction t with
  | nil => simp [find?]
  | cons entry rest ih =>
    obtain ⟨k', v'⟩ := entry
    obtain ⟨hkey, hrest⟩ := List.nodup_cons.mp ht
    have hkeys : ∀ v, (k', v) ∉ rest := fun v hmem => hkey (List.mem_map.mpr ⟨_, hmem, rfl⟩)
    rw [find?_cons, List.mem_cons, Prod.mk.injEq]
    by_cases heq : k = k'
    · rw [heq]
      simp [hkeys v, eq_comm]
    · simp [heq, ih hrest]

/-- A key that is there keeps its place. -/
theorem keys_insert_of_mem (hk : k ∈ t.keys) (v : α) : (t.insert k v).keys = t.keys := by
  induction t with
  | nil => exact absurd hk List.not_mem_nil
  | cons entry rest ih =>
    rw [insert]
    split_ifs with heq
    · rfl
    · have hrest : k ∈ keys rest :=
        (List.mem_cons.mp hk).resolve_left fun h => heq (beq_iff_eq.mpr h.symm)
      rw [keys_cons, keys_cons, ih hrest]

/-- A new key comes last. -/
theorem insert_of_not_mem (hk : k ∉ t.keys) (v : α) : t.insert k v = t ++ [(k, v)] := by
  induction t with
  | nil => rfl
  | cons entry rest ih =>
    rw [keys_cons, List.mem_cons, not_or] at hk
    rw [insert, if_neg fun heq => hk.1 (beq_iff_eq.mp heq).symm, ih hk.2]
    rfl

theorem keys_insert_of_not_mem (hk : k ∉ t.keys) (v : α) :
    (t.insert k v).keys = t.keys ++ [k] := by
  rw [insert_of_not_mem hk, keys, List.map_append]
  rfl

theorem mem_keys_insert : k' ∈ (t.insert k v).keys ↔ k' ∈ t.keys ∨ k' = k := by
  by_cases hk : k ∈ t.keys
  · rw [keys_insert_of_mem hk]
    constructor
    · exact Or.inl
    · rintro (h | rfl)
      · exact h
      · exact hk
  · rw [keys_insert_of_not_mem hk, List.mem_append, List.mem_singleton]

/-- Inserting keeps the keys distinct. -/
theorem nodup_keys_insert (ht : t.keys.Nodup) (k : κ) (v : α) : (t.insert k v).keys.Nodup := by
  by_cases hk : k ∈ t.keys
  · rw [keys_insert_of_mem hk]
    exact ht
  · rw [keys_insert_of_not_mem hk, ← List.concat_eq_append]
    exact ht.concat hk

theorem mem_keys_insertAll : k ∈ (t.insertAll entries).keys ↔ k ∈ t.keys ∨ k ∈ keys entries := by
  induction entries generalizing t with
  | nil => exact ⟨Or.inl, fun h => h.resolve_right List.not_mem_nil⟩
  | cons entry rest ih =>
    rw [insertAll, List.foldl_cons, ← insertAll, ih, mem_keys_insert, or_assoc, keys_cons,
      List.mem_cons]

theorem nodup_keys_insertAll (ht : t.keys.Nodup) (entries : List (κ × α)) :
    (t.insertAll entries).keys.Nodup := by
  induction entries generalizing t with
  | nil => exact ht
  | cons entry rest ih => exact ih (nodup_keys_insert ht entry.1 entry.2)

theorem nodup_keys_ofList (entries : List (κ × α)) : (ofList entries).keys.Nodup :=
  nodup_keys_insertAll (t := []) List.nodup_nil entries

/-- Where no key is new, the keys stay as they are. -/
theorem keys_insertAll_of_subset (h : keys entries ⊆ t.keys) :
    (t.insertAll entries).keys = t.keys := by
  induction entries generalizing t with
  | nil => rfl
  | cons entry rest ih =>
    obtain ⟨hentry, hrest⟩ := List.cons_subset.mp h
    have hkeys := keys_insert_of_mem hentry entry.2
    rw [insertAll, List.foldl_cons, ← insertAll, ih (by rw [hkeys]; exact hrest), hkeys]

/-- New entries with distinct keys come last, in their order. -/
theorem insertAll_eq_append (h : (keys (t ++ entries)).Nodup) :
    t.insertAll entries = t ++ entries := by
  induction entries generalizing t with
  | nil => exact (List.append_nil t).symm
  | cons entry rest ih =>
    have hnew : entry.1 ∉ t.keys := by
      rw [keys, List.map_append, List.map_cons] at h
      exact fun hmem => List.disjoint_of_nodup_append h hmem List.mem_cons_self
    rw [List.append_cons] at h
    rw [insertAll, List.foldl_cons, ← insertAll, insert_of_not_mem hnew, ih h, ← List.append_cons]

/-- A table with distinct keys is made up of its entries. -/
theorem ofList_eq_self (ht : t.keys.Nodup) : ofList t = t :=
  insertAll_eq_append (t := []) ht

/-! ## What is found -/

/-- What is found after inserting. -/
theorem find?_insert (t : Table κ α) (k : κ) (v : α) (k' : κ) :
    (t.insert k v).find? k' = if k' == k then some v else t.find? k' := by
  induction t with
  | nil => rw [insert, find?_cons]
  | cons entry rest ih =>
    obtain ⟨key, value⟩ := entry
    by_cases hkey : key = k
    · rw [insert, if_pos (beq_iff_eq.mpr hkey), find?_cons, find?_cons, ← hkey]
      dsimp only
      split_ifs <;> rfl
    · rw [insert, if_neg fun heq => hkey (beq_iff_eq.mp heq), find?_cons, find?_cons, ih]
      dsimp only
      split_ifs with h₁ h₂
      · exact absurd ((beq_iff_eq.mp h₁).symm.trans (beq_iff_eq.mp h₂)) hkey
      all_goals rfl

/-- Entries that are inserted are found before what was there. -/
theorem find?_insertAll (t : Table κ α) (entries : List (κ × α)) (k : κ) :
    (t.insertAll entries).find? k = ((ofList entries).find? k).or (t.find? k) := by
  induction entries generalizing t with
  | nil => rfl
  | cons entry rest ih =>
    show ((t.insert entry.1 entry.2).insertAll rest).find? k
      = ((insertAll (insert [] entry.1 entry.2) rest).find? k).or (t.find? k)
    rw [ih, ih, find?_insert, find?_insert, Option.or_assoc]
    congr 1
    split_ifs <;> rfl

/-- What holds of the entries that are found, and of new ones, holds of what is found after these have
been inserted. -/
theorem forall_find?_insertAll {Q : κ → α → Prop} (ht : ∀ k v, t.find? k = some v → Q k v)
    (hentries : ∀ e ∈ entries, Q e.1 e.2) : ∀ k v, (t.insertAll entries).find? k = some v → Q k v := by
  induction entries generalizing t with
  | nil => exact ht
  | cons entry rest ih =>
    have hinsert : ∀ k v, (t.insert entry.1 entry.2).find? k = some v → Q k v := by
      intro k v h
      rw [find?_insert] at h
      split_ifs at h with hkey
      · cases h
        rw [eq_of_beq hkey]
        exact hentries entry List.mem_cons_self
      · exact ht k v h
    exact ih hinsert fun e he => hentries e (List.mem_cons_of_mem _ he)

/-- A table with distinct keys has nothing but what is found under its keys. -/
theorem ext (ht : t.keys.Nodup) (hkeys : t.keys = u.keys) (h : ∀ k, t.find? k = u.find? k) :
    t = u := by
  induction t generalizing u with
  | nil => exact (List.map_eq_nil_iff.mp hkeys.symm).symm
  | cons entry rest ih =>
    cases u with
    | nil => cases hkeys
    | cons entry' rest' =>
      rw [keys_cons, keys_cons] at hkeys
      obtain ⟨hentry, hrest⟩ := List.cons.inj hkeys
      obtain ⟨hkey, hnodup⟩ := List.nodup_cons.mp ht
      have hvalue := h entry.1
      rw [find?_cons, find?_cons, if_pos (beq_self_eq_true _), if_pos (beq_iff_eq.mpr hentry),
        Option.some.injEq] at hvalue
      rw [Prod.ext hentry hvalue, ih hnodup hrest]
      intro k
      by_cases heq : k = entry.1
      · -- the key is no key of either rest
        rw [heq, find?_eq_none_iff.mpr hkey, find?_eq_none_iff.mpr (by rw [← hrest]; exact hkey)]
      · have hk := h k
        rw [find?_cons, find?_cons, ← hentry, if_neg fun h => heq (beq_iff_eq.mp h),
          if_neg fun h => heq (beq_iff_eq.mp h)] at hk
        exact hk

/-- Inserting the same entries once more changes nothing. -/
theorem insertAll_insertAll (ht : t.keys.Nodup) (entries : List (κ × α)) :
    (t.insertAll entries).insertAll entries = t.insertAll entries := by
  have hkeys : keys entries ⊆ (t.insertAll entries).keys :=
    fun k hk => mem_keys_insertAll.mpr (Or.inr hk)
  refine ext (nodup_keys_insertAll (nodup_keys_insertAll ht _) _)
    (keys_insertAll_of_subset hkeys) fun k => ?_
  rw [find?_insertAll, find?_insertAll, ← Option.or_assoc, Option.or_self]

/-- What is found in a table with distinct keys is found after its entries have been inserted. -/
theorem find?_ofList (ht : t.keys.Nodup) (k : κ) : (ofList t).find? k = t.find? k := by
  induction t with
  | nil => rfl
  | cons entry rest ih =>
    obtain ⟨hkey, hrest⟩ := List.nodup_cons.mp ht
    show (insertAll (insert [] entry.1 entry.2) rest).find? k = _
    rw [find?_insertAll, ih hrest, find?_insert, find?_cons]
    by_cases heq : k = entry.1
    · rw [if_pos (beq_iff_eq.mpr heq), if_pos (beq_iff_eq.mpr heq), heq,
        find?_eq_none_iff.mpr hkey, Option.none_or]
    · rw [if_neg fun h => heq (beq_iff_eq.mp h), if_neg fun h => heq (beq_iff_eq.mp h)]
      exact Option.or_none

end Table

end BinarySchema
