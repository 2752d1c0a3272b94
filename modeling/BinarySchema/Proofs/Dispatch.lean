/-
# Dispatch by tags

A catalog is changed by calls: schemas are submitted, and values encoded by their tags or by names.
Whatever calls have been made, its layouts are well-formed, its tags are those of its layouts, and
its workspace is clean (`Catalog.ready_runAll`).  So a record that names the tag of its layout in a
first byte of its own is encoded as by itself, its bytes begin with the tag, and they are decoded by
the layout that encoded them, whatever stands behind them (`Catalog.encode?_dispatches`).
-/
import BinarySchema.Proofs.Tag

namespace BinarySchema

namespace Catalog

open Layout

/-! ## Calls -/

/-- A call that may change a catalog. -/
inductive Call where
  /-- Submits a schema. -/
  | submit (s : Schema)
  /-- Encodes a record by the layout that its tag names. -/
  | encode (v : Value)
  /-- Encodes a value by the layout under a name. -/
  | encodeAs (id : String) (v : Value)

/-- The catalog after a call. -/
def run (c : Catalog) : Call → Catalog
  | .submit s => ((submit s).run c).2
  | .encode v => (c.encode? v).elim c (·.2)
  | .encodeAs id v => (c.encodeAs? id v).elim c (·.2)

/-- The catalog after several calls. -/
def runAll (c : Catalog) (calls : List Call) : Catalog := calls.foldl run c

/-- A catalog that encodes as a new one with a workspace of `n` bytes would. -/
structure Ready (n : Nat) (c : Catalog) : Prop where
  /-- The layouts are well-formed. -/
  holds : c.Holds WellFormed
  /-- The tags are those of their layouts. -/
  truthful : c.Truthful
  /-- The workspace holds zeros. -/
  clean : c.workspace = .ofCapacity n

variable {n : Nat} {c c' : Catalog} {layout : Layout} {v : Value}

theorem workspace_compile {s : Schema} (h : c.compile s = .ok (layout, c')) :
    c'.workspace = c.workspace := by
  rcases compile_eq_ok.mp h with ⟨-, rfl⟩ | ⟨-, compiled, -, -, rfl⟩ <;> rfl

theorem Ready.byTag? (hc : c.Ready n) {t : UInt8} (h : c.byTag? t = some layout) :
    layout.WellFormed := Table.of_find? hc.holds.2 h

theorem Ready.byId? (hc : c.Ready n) {id : String} (h : c.byId? id = some layout) :
    layout.WellFormed := Table.of_find? hc.holds.1 h

theorem Ready.layoutOf? (hc : c.Ready n) (h : c.layoutOf? v = some layout) : layout.WellFormed := by
  obtain ⟨x, -, h⟩ := Option.bind_eq_some_iff.mp h
  obtain ⟨tag, -, h⟩ := Option.bind_eq_some_iff.mp h
  split_ifs at h
  exact hc.byTag? h

/-- Encoding leaves the catalog as it was. -/
theorem Ready.encodeWith (hc : c.Ready n) (hwf : layout.WellFormed) (v : Value) :
    c.encodeWith layout v = ((encodeOver layout v (zeros n)).value, c) := by
  obtain ⟨named, tagged, workspace⟩ := c
  have hclean : workspace = .ofCapacity n := hc.clean
  rw [Catalog.encodeWith, hclean]
  dsimp only
  rw [Workspace.encode_ofCapacity hwf]

/-- **One call.** -/
theorem Ready.run (hc : c.Ready n) (call : Call) (hcall : ∀ s, call = .submit s → s.Distinct) :
    (c.run call).Ready n := by
  cases call with
  | submit s =>
    refine ⟨(hc.holds.submit (fun _ hs => hs.children) passedOn_wellFormed (hcall s rfl)).2,
      hc.truthful.submit s, ?_⟩
    rw [Catalog.run, submit_run]
    cases h : c.compile s with
    | error e => exact hc.clean
    | ok result => exact (workspace_compile h).trans hc.clean
  | encode v =>
    rw [Catalog.run, encode?]
    cases h : c.layoutOf? v with
    | none => exact hc
    | some layout =>
      rw [Option.map_some, Option.elim_some, hc.encodeWith (hc.layoutOf? h)]
      exact hc
  | encodeAs id v =>
    rw [Catalog.run, encodeAs?]
    cases h : c.byId? id with
    | none => exact hc
    | some layout =>
      rw [Option.map_some, Option.elim_some, hc.encodeWith (hc.byId? h)]
      exact hc

/-- **Calls.**  Whatever calls are made of a new catalog, its layouts are well-formed, its tags are
those of its layouts, and its workspace is clean. -/
theorem ready_runAll (settings : Settings) {calls : List Call}
    (hcalls : ∀ s, .submit s ∈ calls → s.Distinct) :
    (runAll (.ofSettings settings) calls).Ready settings.capacity := by
  have hrun : ∀ c : Catalog, c.Ready settings.capacity →
      (runAll c calls).Ready settings.capacity := by
    induction calls with
    | nil => exact fun c hc => hc
    | cons call rest ih =>
      intro c hc
      refine ih (fun s hs => hcalls s (List.mem_cons_of_mem _ hs)) (c.run call) (hc.run call ?_)
      rintro s rfl
      exact hcalls s List.mem_cons_self
  exact hrun _ ⟨holds_ofSettings _ settings, truthful_ofSettings settings, rfl⟩

/-! ## Dispatch -/

/-- A value names a tag if its tag field is that number. -/
def NamesTag (v : Value) (t : UInt8) : Prop :=
  v.get? Compile.tagName = some (.int (Int64.ofNat t.toNat))
    ∨ v.get? Compile.tagName = some (.uint t.toUInt64)

variable {t : UInt8}

/-- The tag is an integer, which is stored as the tag itself. -/
theorem NamesTag.exists_byte (h : NamesTag v t) :
    ∃ x, v.get? Compile.tagName = some x ∧ x.toUInt64? = some t.toUInt64 ∧ x.byte = t := by
  have hint : (Value.int (Int64.ofNat t.toNat)).toUInt64? = some t.toUInt64 := by
    rw [Value.toUInt64?, Int64.toUInt64_ofNat', UInt64.ofNat_uInt8ToNat]
  rcases h with h | h
  · exact ⟨_, h, hint, Value.byte_eq hint fun x hx => by cases hx⟩
  · exact ⟨_, h, rfl, Value.byte_eq rfl fun x hx => by cases hx⟩

theorem NamesTag.layoutOf? (h : NamesTag v t) (c : Catalog) : c.layoutOf? v = c.byTag? t := by
  obtain ⟨x, hget, hnumber, -⟩ := h.exists_byte
  have hsmall : t.toUInt64.toNat < 256 := by
    rw [UInt8.toNat_toUInt64]
    exact t.toNat_lt
  rw [Catalog.layoutOf?, hget]
  simp only [Option.bind_eq_bind, Option.bind_some, hnumber, if_pos hsmall, UInt8.toUInt8_toUInt64]

/-- Bytes that begin with a tag are decoded by its layout. -/
theorem decode?_of_head? {b : Bytes} (hb : b.head? = some t) (h : c.byTag? t = some layout) :
    c.decode? b = some (decode layout b) := by
  rw [decode?, window?, hb]
  simp only [Option.bind_eq_bind, Option.bind_some, h, Option.pure_def, Option.map_some, Window.value]

/-- **Dispatch.**  After any calls, a record whose tag is that of its layout, the tag field of which
is an integer of one byte, is encoded as by itself where the workspace has room for it, and the
catalog stays the same.  The first byte is the tag, and with any bytes behind it the encoding decodes
as the layout decodes it. -/
theorem encode?_dispatches (settings : Settings) {calls : List Call}
    (hcalls : ∀ s, .submit s ∈ calls → s.Distinct) {f : Field Layout} {p : Primitive}
    (htag : (runAll (.ofSettings settings) calls).byTag? t = some layout) (hv : NamesTag v t)
    (hfield : layout.tagField? = some f) (hlayout : f.layout = .primitive p) (hp : p.IsByte)
    (hroom : freshLength layout v ≤ settings.capacity) :
    (runAll (.ofSettings settings) calls).encode? v
        = some (toBytes layout v, runAll (.ofSettings settings) calls)
      ∧ (toBytes layout v).head? = some t
      ∧ ∀ more, (runAll (.ofSettings settings) calls).decode? (toBytes layout v ++ more)
        = some (decode layout (toBytes layout v)) := by
  have hc := ready_runAll settings hcalls
  generalize runAll (.ofSettings settings) calls = c at htag hc ⊢
  have hwf := hc.byTag? htag
  -- the tag has been claimed, so that its field is the first byte
  have hplace : f.place = .fixed ⟨0, 1⟩ := by
    obtain ⟨f', d, hfield', hplace, -⟩ := claimedTag?_eq_some.mp (hc.truthful t layout htag)
    rw [hfield] at hfield'
    rw [Option.some.inj hfield', hplace]
  obtain ⟨fields, hfields, hnamed⟩ := Option.bind_eq_some_iff.mp hfield
  obtain ⟨hf, hname⟩ := fieldNamed?_spec hnamed
  obtain ⟨x, hget, -, hbyte⟩ := hv.exists_byte
  have hhead : (toBytes layout v).head? = some t := by
    have hpick : f.pick? v = some x := by rw [Field.pick?, hname, hget, Option.some_or]
    rw [hwf.head?_toBytes hfields hf hplace hlayout hp hpick, hbyte]
  refine ⟨?_, hhead, fun more => ?_⟩
  · rw [encode?, hv.layoutOf?, htag, Option.map_some, hc.encodeWith hwf,
      Workspace.value_encodeOver_zeros hwf hroom]
  · have hmore : (toBytes layout v ++ more).head? = some t := by
      rw [List.head?_append, hhead, Option.some_or]
    rw [decode?_of_head? hmore htag,
      (hwf.sound_toBytes v).decode_record_append hwf hfields (hwf.record hfields).2.2]

/-- A map with a name, after a name that was too long and a record with another tag. -/
theorem encode?_dispatches_person :
    let tag (t : UInt64) : Schema :=
      (Schema.scalar .integer .uint8).withDefault (.number (.natural t))
    let person : Schema :=
      { id := some "Person", type := some .object, btype := some .map, required := ["tag"]
        properties := [("tag", tag 2), ("name", { type := some .string })] }
    let point : Schema :=
      { type := some .object
        properties := [("tag", tag 1), ("x", .scalar .integer .int16)] }
    let calls : List Call :=
      [.submit person, .encodeAs "Person" (.record [("name", .text "Ada Lovelace")]), .submit point,
        .encode (.record [("tag", .int 1), ("x", .int 7)])]
    let ada : Value := .record [("name", .text "Ada"), ("tag", .uint 2)]
    let c : Catalog := runAll (.ofSettings ⟨16⟩) calls
    let tagField : Field Layout :=
      ⟨"tag", .primitive .uint8, .fixed ⟨0, 1⟩, some (.int 2), none⟩
    let layout : Layout := .map [tagField, ⟨"name", .text none, .optional 0, none, none⟩]
    c.byTag? 2 = some layout ∧ toBytes layout ada = [2, 12, 0, 0, 0, 12, 0, 0, 0, 65, 100, 97]
      ∧ c.encode? ada = some (toBytes layout ada, c)
      ∧ ∀ more, c.decode? (toBytes layout ada ++ more)
        = some (decode layout (toBytes layout ada)) := by
  intro tag person point calls ada c tagField layout
  have hperson : person.Distinct := Schema.distinct_of_leaves (by decide) (by decide)
  have hpoint : point.Distinct := Schema.distinct_of_leaves (by decide) (by decide)
  have hcalls : ∀ s, .submit s ∈ calls → s.Distinct := by
    intro s hs
    simp only [calls, List.mem_cons, Call.submit.injEq, reduceCtorEq, List.not_mem_nil, or_false,
      false_or] at hs
    rcases hs with rfl | rfl
    · exact hperson
    · exact hpoint
  have htag : c.byTag? 2 = some layout := rfl
  have hroom : freshLength layout ada ≤ 16 := by decide +kernel
  have hbytes : toBytes layout ada = [2, 12, 0, 0, 0, 12, 0, 0, 0, 65, 100, 97] := by decide +kernel
  obtain ⟨hencode, -, hdecode⟩ := encode?_dispatches ⟨16⟩ hcalls htag (Or.inr rfl)
    (f := tagField) rfl rfl (Or.inr rfl) hroom
  exact ⟨htag, hbytes, hencode, hdecode⟩

end Catalog

end BinarySchema
