/-
# Submitting schemas

Schemas are submitted one after the other to one catalog, which is changed in place
(`Catalog.submit`, `Catalog.submitAll`).  A submission that fails changes nothing; one that succeeds
adds just the names that a walk meets, and has no effect when it is made again
(`Catalog.submit_isRecorded`).
-/
import BinarySchema.Proofs.Catalog

namespace BinarySchema

namespace Catalog

open Dependencies (Meets)

/-! ## Submissions -/

/-- Compiles a schema, changing the catalog entry by entry.  Whatever has been changed stays changed
where an error ends the computation. -/
def submit (s : Schema) : ExceptT CompileError (StateM Catalog) Layout := do
  let c ← get
  match s.id.bind c.byId? with
  | some layout => return layout
  | none =>
    let compiled ← MonadExcept.ofExcept (Compile.compileTree c.byId? s)
    compiled.named.forM fun e => modify fun c => { c with named := c.named.insert e.1 e.2 }
    compiled.tags.forM fun e => modify fun c => { c with tagged := c.tagged.insert e.1 e.2 }
    return compiled.root

/-- Submits schemas in turn, and gives the result for each. -/
def submitAll : List Schema → StateM Catalog (List (Except CompileError Layout))
  | [] => return []
  | s :: rest => do
    let result ← (submit s).run
    return result :: (← submitAll rest)

variable {c c' : Catalog} {s : Schema} {layout : Layout}

/-- A loop that changes the catalog for each entry, and then goes on. -/
theorem run_forM_modify {α β : Type} (f : α → Catalog → Catalog) (entries : List α) (c : Catalog)
    (rest : ExceptT CompileError (StateM Catalog) β) :
    ((entries.forM fun e => modify (f e)) >>= fun _ => rest).run c
      = rest.run (entries.foldl (fun c e => f e c) c) := by
  induction entries generalizing c with
  | nil => rfl
  | cons e rest ih => exact ih (f e c)

theorem foldl_named (entries : List (String × Layout)) (c : Catalog) :
    entries.foldl (fun c e => { c with named := c.named.insert e.1 e.2 }) c
      = { c with named := c.named.insertAll entries } := by
  induction entries generalizing c with
  | nil => rfl
  | cons e rest ih => exact ih _

theorem foldl_tagged (entries : List (UInt8 × Layout)) (c : Catalog) :
    entries.foldl (fun c e => { c with tagged := c.tagged.insert e.1 e.2 }) c
      = { c with tagged := c.tagged.insertAll entries } := by
  induction entries generalizing c with
  | nil => rfl
  | cons e rest ih => exact ih _

section

variable {α β : Type} (c : Catalog)

theorem run_get (f : Catalog → ExceptT CompileError (StateM Catalog) β) :
    (get >>= f).run c = (f c).run c := rfl

theorem run_ofExcept_ok (a : α) (f : α → ExceptT CompileError (StateM Catalog) β) :
    (MonadExcept.ofExcept (.ok a) >>= f).run c = (f a).run c := rfl

theorem run_ofExcept_error (e : CompileError) (f : α → ExceptT CompileError (StateM Catalog) β) :
    (MonadExcept.ofExcept (.error e) >>= f).run c = (.error e, c) := rfl

end

/-- A submission leaves what compiling gives, and what was there where compiling fails. -/
theorem submit_run (s : Schema) (c : Catalog) : (submit s).run c = match c.compile s with
    | .ok (layout, c') => (.ok layout, c')
    | .error e => (.error e, c) := by
  unfold submit compile
  rw [run_get]
  cases s.id.bind c.byId? with
  | some layout => rfl
  | none =>
    dsimp only
    cases Compile.compileTree c.byId? s with
    | error e =>
      rw [run_ofExcept_error]
      rfl
    | ok compiled =>
      rw [run_ofExcept_ok, run_forM_modify, foldl_named, run_forM_modify, foldl_tagged]
      rfl

/-! ## Tables -/

/-- No name and no tag occurs twice. -/
def Keyed (c : Catalog) : Prop := c.named.keys.Nodup ∧ c.tagged.keys.Nodup

theorem keyed_ofSettings (settings : Settings) : Keyed (.ofSettings settings) :=
  ⟨List.nodup_nil, List.nodup_nil⟩

theorem Keyed.compile (hc : c.Keyed) (h : c.compile s = .ok (layout, c')) : c'.Keyed := by
  rcases compile_eq_ok.mp h with ⟨-, rfl⟩ | ⟨-, compiled, -, -, rfl⟩
  · exact hc
  · exact ⟨Table.nodup_keys_insertAll hc.1 _, Table.nodup_keys_insertAll hc.2 _⟩

/-- Whether there is a layout under a name. -/
def hasName (c : Catalog) (id : String) : Bool := (c.byId? id).isSome

theorem hasName_iff {id : String} : c.hasName id ↔ id ∈ c.named.keys := Table.isSome_find?_iff

/-! ## Compiling -/

theorem keys_compileNodes {known : String → Option Layout} {d : Dependencies} {order : List String}
    (horder : d.order = .ok order) {named : Table String Layout} {tags : TagClaims}
    (h : (Compile.compileNodes known d order []).run [] = .ok (named, tags)) :
    named.keys.Nodup ∧ ∀ id, id ∈ named.keys ↔ id ∈ d.ids := by
  obtain ⟨⟨hnodup, hmem⟩, -⟩ := (Compile.ensures_compileNodesAny known d order).result _ _ h
  refine ⟨hnodup, fun id => (hmem id).trans ?_⟩
  exact and_iff_right_of_imp fun h => Dependencies.order_complete horder h

/-- The names that compiling a tree gives layouts are those that a walk meets, each once. -/
theorem compileTree_named {compiled : Compiled} (h : Compile.compileTree c.byId? s = .ok compiled) :
    ∃ new, Meets c.hasName [] [s] new ∧ compiled.named.keys.Perm new := by
  obtain ⟨d, order, nodeTags, rootTags, hd, horder, hnodes, -, -⟩ :=
    Compile.compileTree_eq_ok.mp h
  have hmeets : Meets c.hasName [] [s] d.ids := Dependencies.ofSchema_meets hd
  obtain ⟨hnodup, hmem⟩ := keys_compileNodes horder hnodes
  exact ⟨d.ids, hmeets, (List.perm_ext_iff_of_nodup hnodup hmeets.fresh.1).mpr hmem⟩

/-- After compiling, what is found under a name is what the root was compiled by. -/
theorem find?_insertAll_named {compiled : Compiled}
    (h : Compile.compileTree c.byId? s = .ok compiled) :
    (c.named.insertAll compiled.named).find? = Compile.lookup c.byId? compiled.named := by
  obtain ⟨new, hmeets, hperm⟩ := compileTree_named h
  funext id
  rw [Table.find?_insertAll, Table.find?_ofList (hperm.nodup_iff.mpr hmeets.fresh.1)]
  rfl

/-- **Registration.**  Compiling adds just the names that a walk meets. -/
theorem compile_named (hc : c.Keyed) (h : c.compile s = .ok (layout, c')) :
    ∃ new, Meets c.hasName [] [s] new ∧ c'.named.keys.Perm (c.named.keys ++ new) := by
  rcases compile_eq_ok.mp h with ⟨hfound, rfl⟩ | ⟨-, compiled, hcompiled, -, rfl⟩
  · obtain ⟨id, hid, hlayout⟩ := Option.bind_eq_some_iff.mp hfound
    refine ⟨[], ?_, by rw [List.append_nil]⟩
    cases hs : s.reference with
    | some r => exact .reference (by rw [hs]; rfl) .done
    | none => exact .met hs hid (Or.inl (by rw [hasName, hlayout]; rfl)) .done
  · obtain ⟨new, hmeets, hperm⟩ := compileTree_named hcompiled
    obtain ⟨hnodup, hfresh⟩ := hmeets.fresh
    refine ⟨new, hmeets, ?_⟩
    refine (List.perm_ext_iff_of_nodup (Table.nodup_keys_insertAll hc.1 _) ?_).mpr fun id => ?_
    · exact hc.1.append hnodup fun id hid hnew => (hfresh id hnew).1 (hasName_iff.mpr hid)
    · rw [Table.mem_keys_insertAll, List.mem_append]
      exact or_congr_right hperm.mem_iff

/-- A layout under a name stays there. -/
theorem compile_keeps (h : c.compile s = .ok (layout, c')) {id : String} {l : Layout}
    (hl : c.byId? id = some l) : c'.byId? id = some l := by
  rcases compile_eq_ok.mp h with ⟨-, rfl⟩ | ⟨-, compiled, hcompiled, -, rfl⟩
  · exact hl
  · obtain ⟨new, hmeets, hperm⟩ := compileTree_named hcompiled
    have hid : id ∉ compiled.named.keys := by
      rw [hperm.mem_iff]
      exact fun hnew => (hmeets.fresh.2 id hnew).1 (by rw [hasName, hl]; rfl)
    show (c.named.insertAll compiled.named).find? id = some l
    rw [find?_insertAll_named hcompiled, Compile.lookup, Table.find?_eq_none_iff.mpr hid,
      Option.none_or, hl]

/-- Where a name is that of the root, and is new, the root is no reference. -/
theorem reference_eq_none {known : String → Bool} {id : String} {new : List String}
    (h : Meets known [] [s] new) (hnew : id ∈ new) : s.reference = none := by
  cases h with
  | reference hs h =>
    cases h
    exact absurd hnew List.not_mem_nil
  | anonymous hs hid h => exact hs
  | met hs hid hmet h => exact hs
  | named hs hid hknown hmet h => exact hs

/-- Compiling once more gives the same and changes nothing. -/
theorem compile_again (hc : c.Keyed) (h : c.compile s = .ok (layout, c')) :
    c'.compile s = .ok (layout, c') := by
  rcases compile_eq_ok.mp h with ⟨-, rfl⟩ | ⟨hnone, compiled, hcompiled, rfl, hc'⟩
  · exact h
  obtain ⟨d, order, nodeTags, rootTags, hd, horder, hnodes, hroot, htags⟩ :=
    Compile.compileTree_eq_ok.mp hcompiled
  have hlookup : Compile.lookup c.byId? compiled.named = c'.byId? := by
    rw [← find?_insertAll_named hcompiled, hc']
    rfl
  have hids : ∀ id, id ∈ c'.named.keys ↔ id ∈ c.named.keys ∨ id ∈ d.ids := by
    intro id
    rw [hc', ← (keys_compileNodes horder hnodes).2]
    exact Table.mem_keys_insertAll
  rw [hlookup] at hroot
  rw [compile_eq_ok]
  cases hfound : s.id.bind c'.byId? with
  | some found =>
    -- the root has a name, under which its layout has been put
    refine Or.inl ⟨?_, rfl⟩
    obtain ⟨id, hid, hlayout⟩ := Option.bind_eq_some_iff.mp hfound
    have hold : id ∉ c.named.keys := by
      rw [← Table.find?_eq_none_iff]
      rw [hid] at hnone
      exact hnone
    have hnew : id ∈ d.ids :=
      ((hids id).mp (hasName_iff.mp (by rw [hasName, hlayout]; rfl))).resolve_left hold
    rw [Compile.resolve, reference_eq_none (Dependencies.ofSchema_meets hd) hnew, hfound] at hroot
    cases hroot
    rfl
  | none =>
    refine Or.inr ⟨rfl, ⟨compiled.root, [], rootTags⟩, ?_, rfl, ?_⟩
    · obtain ⟨d', hd', hnodes'⟩ := Dependencies.ofSchema_again hd
        (fun id hid => hasName_iff.mpr ((hids id).mpr (Or.inl (hasName_iff.mp hid))))
        fun id hid => hasName_iff.mpr ((hids id).mpr (Or.inr hid))
      refine Compile.compileTree_eq_ok.mpr ⟨d', [], [], rootTags, hd',
        Dependencies.order_of_nil hnodes', rfl, ?_, rfl⟩
      exact hroot
    · -- the claims made in the root are made again, in the same order
      have htagged : c'.tagged = (c.tagged.insertAll nodeTags).insertAll rootTags := by
        rw [hc', htags, ← Table.insertAll_append]
      have hagain : c'.tagged.insertAll rootTags = c'.tagged := by
        rw [htagged, Table.insertAll_insertAll (Table.nodup_keys_insertAll hc.2 _)]
      rw [hagain]
      rfl

/-! ## Sequences of submissions -/

theorem Keyed.submit (hc : c.Keyed) (s : Schema) : ((submit s).run c).2.Keyed := by
  rw [submit_run]
  cases h : c.compile s with
  | error e => exact hc
  | ok result => exact hc.compile h

theorem Keyed.submitAll (hc : c.Keyed) (schemas : List Schema) :
    ((submitAll schemas).run c).2.Keyed := by
  induction schemas generalizing c with
  | nil => exact hc
  | cons s rest ih => exact ih (hc.submit s)

theorem submit_keeps (s : Schema) {id : String} (h : c.byId? id = some layout) :
    ((submit s).run c).2.byId? id = some layout := by
  rw [submit_run]
  cases hcompile : c.compile s with
  | error e => exact h
  | ok result => exact compile_keeps hcompile h

theorem submitAll_keeps (schemas : List Schema) {id : String} (h : c.byId? id = some layout) :
    ((submitAll schemas).run c).2.byId? id = some layout := by
  induction schemas generalizing c with
  | nil => exact h
  | cons s rest ih => exact ih (submit_keeps s h)

/-- What is asked of a submission that leads from one catalog to another. -/
def IsRecorded (s : Schema) (c : Catalog) : Except CompileError Layout × Catalog → Prop
  | (.error _, c') => c'.named = c.named ∧ c'.tagged = c.tagged
  | (.ok layout, c') =>
    (∃ new, Meets c.hasName [] [s] new ∧ new.Nodup ∧ (∀ id ∈ new, c.byId? id = none)
      ∧ c'.named.keys.Perm (c.named.keys ++ new) ∧ c'.size = c.size + new.length)
    ∧ (submit s).run c' = (.ok layout, c')

/-- **Submissions.**  Whatever has been submitted before, a submission that fails changes no table;
one that succeeds adds just the names that a walk meets, which are new, and gives the same layout
without any change when it is made again; and what is found under a name is found there after
whatever is submitted later. -/
theorem submit_isRecorded (settings : Settings) (history : List Schema) (s : Schema) :
    let c := ((submitAll history).run (.ofSettings settings)).2
    IsRecorded s c ((submit s).run c) ∧ ∀ later id layout, c.byId? id = some layout →
      ((submitAll later).run c).2.byId? id = some layout := by
  intro c
  have hc : c.Keyed := (keyed_ofSettings settings).submitAll history
  refine ⟨?_, fun later id layout h => submitAll_keeps later h⟩
  rw [submit_run]
  cases h : c.compile s with
  | error e => exact ⟨rfl, rfl⟩
  | ok result =>
    obtain ⟨layout, c'⟩ := result
    obtain ⟨new, hmeets, hperm⟩ := compile_named hc h
    obtain ⟨hnodup, hfresh⟩ := hmeets.fresh
    refine ⟨⟨new, hmeets, hnodup, fun id hid => ?_, hperm, ?_⟩, ?_⟩
    · have hnone := (hfresh id hid).1
      rw [hasName, Option.not_isSome_iff_eq_none] at hnone
      exact hnone
    · have hlength := hperm.length_eq
      rw [Table.keys, List.length_map, List.length_append, Table.keys, List.length_map] at hlength
      exact hlength
    · rw [submit_run, compile_again hc h]

/-- Two records in a record without a name claim the same tag, which the second one keeps. -/
theorem submit_isRecorded_sameTag :
    let record (name : String) : Schema :=
      { type := some .object
        properties := [("tag", (Schema.scalar .integer .uint8).withDefault (.number (.natural 1))),
          (name, .scalar .integer .uint8)] }
    let root : Schema :=
      { type := some .object, properties := [("a", record "x"), ("b", record "y")] }
    ∃ layout c last, (submit root).run (.ofSettings ⟨0⟩) = (.ok layout, c)
      ∧ c.tagged = [(1, .object last)] ∧ last.map Field.name = ["tag", "y"]
      ∧ (submit root).run c = (.ok layout, c) := by
  intro record root
  have hrecorded := (submit_isRecorded ⟨0⟩ [] root).1
  exact ⟨_, _, _, rfl, rfl, rfl, hrecorded.2⟩

end Catalog

end BinarySchema
