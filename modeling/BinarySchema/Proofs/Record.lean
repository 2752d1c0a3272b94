/-
# Ordered fields

A list of fields whose names ascend is determined by what is found under each name
(`Ordered.ext`).  Setting a field keeps the order and changes what is found under one name only, so
that setting many fields gives the same as a list of them (`lookup_setAll`), and setting those of
an ordered list in turn builds the list again (`setNew_of_ordered`).
-/
import Mathlib
import BinarySchema.Value

namespace BinarySchema

namespace Value

variable {α : Type} {fields : List (String × α)} {name : String} {v : α}

/-- The names ascend, and so no name comes twice. -/
def Ordered (fields : List (String × α)) : Prop := fields.Pairwise fun a b => a.1 < b.1

theorem isNull_eq_false {v : Value} (h : v ≠ .null) : v.isNull = false := by
  cases v with
  | null => exact absurd rfl h
  | _ => rfl

/-! ## Finding a field -/

theorem lookup_cons_eq (key name : String) (v : α) (rest : List (String × α)) :
    ((name, v) :: rest).lookup key = if key = name then some v else rest.lookup key := by
  by_cases h : key = name
  · rw [h, List.lookup_cons_self, if_pos rfl]
  · rw [List.lookup_cons, beq_false_of_ne h, if_neg h]

theorem mem_of_lookup (h : fields.lookup name = some v) : (name, v) ∈ fields := by
  induction fields with
  | nil => exact absurd h (by simp)
  | cons field rest ih =>
    obtain ⟨name', v'⟩ := field
    rw [lookup_cons_eq] at h
    split_ifs at h with heq
    · rw [Option.some.injEq] at h
      rw [heq, h]
      exact List.mem_cons_self
    · exact List.mem_cons_of_mem _ (ih h)

/-- Nothing is found under a name that is not among those of the fields. -/
theorem lookup_eq_none (h : name ∉ fields.map (·.1)) : fields.lookup name = none := by
  cases hfound : fields.lookup name with
  | none => rfl
  | some v => exact absurd (List.mem_map_of_mem (mem_of_lookup hfound)) h

/-- Something is found under the name of every field. -/
theorem exists_lookup (h : name ∈ fields.map (·.1)) : ∃ v, fields.lookup name = some v := by
  induction fields with
  | nil => exact absurd h List.not_mem_nil
  | cons field rest ih =>
    obtain ⟨name', v'⟩ := field
    rw [lookup_cons_eq]
    by_cases heq : name = name'
    · exact ⟨v', if_pos heq⟩
    · rw [if_neg heq]
      rw [List.map_cons, List.mem_cons] at h
      exact ih (h.resolve_left heq)

/-- Where no name comes twice, every field is found. -/
theorem lookup_of_mem (hnodup : (fields.map (·.1)).Nodup) (h : (name, v) ∈ fields) :
    fields.lookup name = some v := by
  induction fields with
  | nil => exact absurd h List.not_mem_nil
  | cons field rest ih =>
    obtain ⟨name', v'⟩ := field
    rw [List.map_cons, List.nodup_cons] at hnodup
    rw [lookup_cons_eq]
    rcases List.mem_cons.mp h with heq | hrest
    · rw [Prod.mk.injEq] at heq
      rw [if_pos heq.1, heq.2]
    · have hne : name ≠ name' := by
        rintro rfl
        exact hnodup.1 (List.mem_map.mpr ⟨_, hrest, rfl⟩)
      rw [if_neg hne, ih hnodup.2 hrest]

theorem lookup_append (key : String) (xs ys : List (String × α)) :
    (xs ++ ys).lookup key = (xs.lookup key).or (ys.lookup key) := by
  induction xs with
  | nil => rfl
  | cons field rest ih =>
    obtain ⟨name, v⟩ := field
    rw [List.cons_append, lookup_cons_eq, lookup_cons_eq, ih]
    by_cases h : key = name
    · rw [if_pos h, if_pos h, Option.some_or]
    · rw [if_neg h, if_neg h]

/-! ## Order -/

theorem Ordered.nodup (h : Ordered fields) : (fields.map (·.1)).Nodup := by
  rw [List.nodup_iff_pairwise_ne, List.pairwise_map]
  exact h.imp fun hlt => ne_of_lt hlt

/-- Ordered fields are determined by what is found under each name. -/
theorem Ordered.ext {xs ys : List (String × α)} (hx : Ordered xs) (hy : Ordered ys)
    (h : ∀ key, xs.lookup key = ys.lookup key) : xs = ys := by
  have hmem : ∀ field, field ∈ xs ↔ field ∈ ys := by
    rintro ⟨name, v⟩
    constructor
    · intro hin
      exact mem_of_lookup (by rw [← h, lookup_of_mem hx.nodup hin])
    · intro hin
      exact mem_of_lookup (by rw [h, lookup_of_mem hy.nodup hin])
  have hperm : xs.Perm ys := by
    rw [List.perm_ext_iff_of_nodup hx.nodup.of_map hy.nodup.of_map]
    exact hmem
  exact hperm.eq_of_pairwise (fun a b _ _ hab hba => absurd hab (lt_asymm hba)) hx hy

/-- A field that is found is one of the record. -/
theorem mem_fields_of_get? {v x : Value} {name : String} (h : v.get? name = some x) :
    (name, x) ∈ v.fields := by
  cases v with
  | record fields => exact mem_of_lookup (Option.filter_eq_some_iff.mp h).1
  | _ => cases h

/-! ## Setting a field -/

theorem lookup_insertField (key name : String) (v : α) (fields : List (String × α)) :
    (insertField name v fields).lookup key = if key = name then some v else fields.lookup key := by
  induction fields with
  | nil => rw [insertField, lookup_cons_eq]
  | cons field rest ih =>
    obtain ⟨name', v'⟩ := field
    rw [insertField, lookup_cons_eq]
    by_cases hlt : name < name'
    · rw [if_pos hlt, lookup_cons_eq, lookup_cons_eq]
    · rw [if_neg hlt]
      by_cases heq : name = name'
      · rw [if_pos heq, lookup_cons_eq]
        by_cases hkey : key = name
        · rw [if_pos hkey, if_pos hkey]
        · rw [if_neg hkey, if_neg hkey, if_neg (heq ▸ hkey)]
      · rw [if_neg heq, lookup_cons_eq, ih]
        by_cases hkey : key = name
        · rw [if_pos hkey, if_pos hkey, if_neg (hkey ▸ heq)]
        · rw [if_neg hkey, if_neg hkey]

theorem mem_insertField {field : String × α} (h : field ∈ insertField name v fields) :
    field = (name, v) ∨ field ∈ fields := by
  induction fields with
  | nil => exact Or.inl (List.mem_singleton.mp h)
  | cons field' rest ih =>
    obtain ⟨name', v'⟩ := field'
    rw [insertField] at h
    split_ifs at h with hlt heq
    · exact List.mem_cons.mp h
    · rcases List.mem_cons.mp h with h | h
      · exact Or.inl h
      · exact Or.inr (List.mem_cons_of_mem _ h)
    · rcases List.mem_cons.mp h with h | h
      · exact Or.inr (h ▸ List.mem_cons_self)
      · rcases ih h with h | h
        · exact Or.inl h
        · exact Or.inr (List.mem_cons_of_mem _ h)

/-- Setting a field keeps the order. -/
theorem Ordered.insertField (h : Ordered fields) (name : String) (v : α) :
    Ordered (insertField name v fields) := by
  induction fields with
  | nil => exact List.pairwise_singleton _ _
  | cons field rest ih =>
    obtain ⟨name', v'⟩ := field
    have hhead := fun a (ha : a ∈ rest) => List.rel_of_pairwise_cons h ha
    rw [Value.insertField]
    split_ifs with hlt heq
    · refine List.Pairwise.cons ?_ h
      intro field hfield
      rcases List.mem_cons.mp hfield with rfl | hfield
      · exact hlt
      · exact lt_trans hlt (hhead field hfield)
    · refine List.Pairwise.cons ?_ h.of_cons
      intro field hfield
      show name < field.1
      rw [heq]
      exact hhead field hfield
    · refine List.Pairwise.cons ?_ (ih h.of_cons)
      intro field hfield
      rcases mem_insertField hfield with rfl | hfield
      · exact lt_of_le_of_ne (not_lt.mp hlt) (Ne.symm heq)
      · exact hhead field hfield

/-! ## Setting many fields -/

/-- Sets fields in turn. -/
def setAll (new fields : List (String × α)) : List (String × α) :=
  new.foldl (fun fields field => Value.insertField field.1 field.2 fields) fields

theorem Ordered.setAll (h : Ordered fields) (new : List (String × α)) :
    Ordered (setAll new fields) := by
  induction new generalizing fields with
  | nil => exact h
  | cons field rest ih => exact ih (h.insertField field.1 field.2)

/-- What is among the fields after some have been set was set or was there. -/
theorem mem_setAll {new : List (String × α)} {field : String × α}
    (h : field ∈ setAll new fields) : field ∈ new ∨ field ∈ fields := by
  induction new generalizing fields with
  | nil => exact Or.inr h
  | cons first rest ih =>
    rcases ih (show field ∈ setAll rest (insertField first.1 first.2 fields) from h) with h | h
    · exact Or.inl (List.mem_cons_of_mem _ h)
    · rcases mem_insertField h with rfl | h
      · exact Or.inl List.mem_cons_self
      · exact Or.inr h

/-- Fields with names of their own are all found after they have been set. -/
theorem lookup_setAll {new : List (String × α)} (hnodup : (new.map (·.1)).Nodup) (key : String) :
    (setAll new fields).lookup key = (new.lookup key).or (fields.lookup key) := by
  induction new generalizing fields with
  | nil => rfl
  | cons field rest ih =>
    obtain ⟨name, v⟩ := field
    rw [List.map_cons, List.nodup_cons] at hnodup
    have hset : setAll ((name, v) :: rest) fields = setAll rest (insertField name v fields) := rfl
    rw [hset, ih hnodup.2, lookup_insertField, lookup_cons_eq]
    by_cases h : key = name
    · rw [if_pos h, if_pos h, h, lookup_eq_none hnodup.1, Option.none_or, Option.some_or]
    · rw [if_neg h, if_neg h]

/-- A field whose name is the greatest comes last. -/
theorem insertField_last (h : ∀ field ∈ fields, field.1 < name) :
    insertField name v fields = fields ++ [(name, v)] := by
  induction fields with
  | nil => rfl
  | cons field rest ih =>
    obtain ⟨name', v'⟩ := field
    have hlt : name' < name := h _ List.mem_cons_self
    rw [insertField, if_neg (lt_asymm hlt), if_neg (ne_of_gt hlt),
      ih fun field hfield => h field (List.mem_cons_of_mem _ hfield), List.cons_append]

/-- Sets fields in turn, unless they are there already. -/
def setNew (new fields : List (String × α)) : List (String × α) :=
  new.foldl (fun fields field => insertNewField field.1 field.2 fields) fields

theorem setNew_cons (field : String × α) (rest fields : List (String × α)) :
    setNew (field :: rest) fields = setNew rest (insertNewField field.1 field.2 fields) := rfl

theorem Ordered.setNew (h : Ordered fields) (new : List (String × α)) :
    Ordered (setNew new fields) := by
  induction new generalizing fields with
  | nil => exact h
  | cons field rest ih =>
    rw [setNew_cons, insertNewField]
    split_ifs
    · exact ih h
    · exact ih (h.insertField field.1 field.2)

theorem mem_setNew {new : List (String × α)} {field : String × α} (h : field ∈ setNew new fields) :
    field ∈ new ∨ field ∈ fields := by
  induction new generalizing fields with
  | nil => exact Or.inr h
  | cons first rest ih =>
    rw [setNew_cons, insertNewField] at h
    rcases ih h with h | h
    · exact Or.inl (List.mem_cons_of_mem _ h)
    · split_ifs at h
      · exact Or.inr h
      · rcases mem_insertField h with rfl | h
        · exact Or.inl List.mem_cons_self
        · exact Or.inr h

theorem sum_map_insertField_le (weight : String × α → Nat) (name : String) (v : α)
    (fields : List (String × α)) :
    ((insertField name v fields).map weight).sum ≤ weight (name, v) + (fields.map weight).sum := by
  induction fields with
  | nil => exact le_refl _
  | cons field rest ih =>
    obtain ⟨name', v'⟩ := field
    rw [insertField]
    split_ifs <;> simp only [List.map_cons, List.sum_cons] <;> omega

/-- What is set weighs no more than all that was to be set. -/
theorem sum_map_setNew_le (weight : String × α → Nat) (new fields : List (String × α)) :
    ((setNew new fields).map weight).sum ≤ (new.map weight).sum + (fields.map weight).sum := by
  induction new generalizing fields with
  | nil => exact Nat.le_add_left _ _
  | cons field rest ih =>
    have hinsert : ((insertField field.1 field.2 fields).map weight).sum
        ≤ weight field + (fields.map weight).sum :=
      sum_map_insertField_le weight field.1 field.2 fields
    rw [setNew_cons, insertNewField, List.map_cons, List.sum_cons]
    split_ifs
    · have hrest := ih fields
      omega
    · have hrest := ih (insertField field.1 field.2 fields)
      omega

/-- Setting those fields that are not there yet, in order, puts them behind the others. -/
theorem setNew_of_ordered {new : List (String × α)} (fields : List (String × α))
    (h : Ordered (fields ++ new)) : setNew new fields = fields ++ new := by
  induction new generalizing fields with
  | nil => rw [List.append_nil]; rfl
  | cons field rest ih =>
    have hlast : ∀ field' ∈ fields, field'.1 < field.1 := fun field' hfield =>
      (List.pairwise_append.mp h).2.2 field' hfield field List.mem_cons_self
    have hnone : fields.lookup field.1 = none := by
      apply lookup_eq_none
      intro hin
      obtain ⟨field', hfield, heq⟩ := List.mem_map.mp hin
      exact absurd (hlast field' hfield) (by rw [heq]; exact lt_irrefl _)
    have hassoc : fields ++ field :: rest = fields ++ [field] ++ rest := by
      rw [List.append_assoc, List.singleton_append]
    rw [setNew_cons, insertNewField, hnone, Option.isSome_none, if_neg Bool.false_ne_true,
      insertField_last hlast, hassoc]
    rw [hassoc] at h
    exact ih _ h

end Value

end BinarySchema
