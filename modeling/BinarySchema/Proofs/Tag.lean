/-
# Tags

Whatever has been submitted, the layout under a tag is that of a record whose tag field is the first
byte, and has the tag as its default (`Catalog.byTag?_truthful`); a record whose tag field has any
other place, or a default that is no byte, does not compile (`Compile.claimTag_run`).

The first byte of a record that has no fields of its own is the tag if the tag field is an integer,
and its default is no floating-point number below zero.  Neither is checked: a truth value is stored
as one or zero (`Catalog.byTag?_boolean`).
-/
import BinarySchema.Proofs.Regular
import BinarySchema.Proofs.Template

namespace BinarySchema

variable {f : Field Layout} {d : Value} {t : UInt8} {layout : Layout}

/-! ## Tags as bytes -/

theorem toUInt8_of_lt {n : UInt64} (h : n.toNat < 256) : n.toUInt8.toUInt64 = n := by
  apply UInt64.toNat_inj.mp
  rw [UInt8.toNat_toUInt64, UInt64.toNat_toUInt8]
  exact Nat.mod_eq_of_lt h

namespace Compile

/-- A tag is read from the first byte, and is the default as an unsigned number. -/
theorem tagOf?_eq_some :
    tagOf? f d = some t ↔ f.place = .fixed ⟨0, 1⟩ ∧ d.toUInt64? = some t.toUInt64 := by
  unfold tagOf?
  constructor
  · intro h
    split at h
    · next n hplace hnumber =>
      split_ifs at h with hsmall
      cases h
      exact ⟨hplace, by rw [hnumber, toUInt8_of_lt hsmall]⟩
    · cases h
  · rintro ⟨hplace, hnumber⟩
    have hsmall : t.toUInt64.toNat < 256 := by
      rw [UInt8.toNat_toUInt64]
      exact t.toNat_lt
    rw [hplace, hnumber]
    show (if t.toUInt64.toNat < 256 then some t.toUInt64.toUInt8 else none) = some t
    rw [if_pos hsmall, UInt8.toUInt8_toUInt64]

end Compile

/-- A byte is in the range of signed integers. -/
theorem clamp_toNat (t : UInt8) :
    max Int64.minValue.toInt (min Int64.maxValue.toInt (t.toNat : Int)) = t.toNat := by
  have hsmall := t.toNat_lt
  have hmin : Int64.minValue.toInt = -9223372036854775808 := rfl
  have hmax : Int64.maxValue.toInt = 9223372036854775807 := rfl
  omega

/-- A number that is a byte, taken as an unsigned number, is stored as that byte, unless it is a
floating-point number below zero. -/
theorem Value.byte_eq (h : d.toUInt64? = some t.toUInt64)
    (hd : ∀ x, d = .float x → 0 ≤ x.truncate UInt64.size) : d.byte = t := by
  have hsigned : d.toInt64?.map Int64.toUInt64 = some t.toUInt64 := by
    cases d with
    | float x =>
      have hle := hd x rfl
      have htruncate : min (UInt64.size - 1) (x.truncate UInt64.size).toNat % UInt64.size
          = t.toNat := by
        have hnumber := congrArg UInt64.toNat (Option.some.inj h)
        rw [UInt8.toNat_toUInt64] at hnumber
        exact hnumber
      -- such a number is in the range of both signed and unsigned integers
      have hexact : x.truncate UInt64.size = t.toNat := by
        have hsmall := t.toNat_lt
        simp only [UInt64.size] at htruncate hle ⊢
        omega
      rw [toInt64?, Option.map_some, Binary64.toInt64, hexact, clamp_toNat, Int64.ofInt_eq_ofNat,
        Int64.toUInt64_ofNat', UInt64.ofNat_uInt8ToNat]
    | bool b =>
      rw [← h]
      cases b <;> rfl
    | int n => exact h
    | uint n =>
      rw [← h, toInt64?, toUInt64?, Option.map_some, UInt64.toUInt64_toInt64]
    | _ => cases h
  obtain ⟨n, hn, hbyte⟩ := Option.map_eq_some_iff.mp hsigned
  rw [byte, hn, Option.getD_some, hbyte, UInt8.toUInt8_toUInt64]

/-! ## Claims -/

namespace Layout

theorem claimedTag?_eq_some : layout.claimedTag? = some t ↔ ∃ f d, layout.tagField? = some f
    ∧ f.place = .fixed ⟨0, 1⟩ ∧ f.default = some d ∧ d.toUInt64? = some t.toUInt64 := by
  rw [claimedTag?, Option.bind_eq_some_iff]
  constructor
  · rintro ⟨f, hf, h⟩
    obtain ⟨d, hd, htag⟩ := Option.bind_eq_some_iff.mp h
    obtain ⟨hplace, hnumber⟩ := Compile.tagOf?_eq_some.mp htag
    exact ⟨f, d, hf, hplace, hd, hnumber⟩
  · rintro ⟨f, d, hf, hplace, hd, hnumber⟩
    exact ⟨f, hf, Option.bind_eq_some_iff.mpr ⟨d, hd, Compile.tagOf?_eq_some.mpr ⟨hplace, hnumber⟩⟩⟩

end Layout

namespace Compile

open CompileM Layout

variable {known : String → Option Layout} {s : Schema}

/-- Every tag that is claimed in a tree is claimed by its layout. -/
theorem claimedTag?_of_compileTree {compiled : Compiled} (h : compileTree known s = .ok compiled) :
    ∀ e ∈ compiled.tags, e.2.claimedTag? = some e.1 := by
  obtain ⟨d, order, nodeTags, rootTags, -, -, hnodes, hroot, htags⟩ := compileTree_eq_ok.mp h
  obtain ⟨-, hnodeTags⟩ := (ensures_compileNodesAny known d order).result _ _ hnodes
  obtain ⟨-, hrootTags⟩ := (ensures_rootAny _ s).result _ _ hroot
  rw [htags]
  exact List.forall_mem_append.mpr
    ⟨fun e he => (hnodeTags e he).2, fun e he => (hrootTags e he).2⟩

end Compile

/-! ## Catalogs -/

namespace Catalog

open Layout

variable {c c' : Catalog} {schemas : List Schema}

/-- Every tag of the catalog is claimed by its layout. -/
def Truthful (c : Catalog) : Prop :=
  ∀ t layout, c.byTag? t = some layout → layout.claimedTag? = some t

theorem truthful_ofSettings (settings : Settings) : Truthful (.ofSettings settings) := by
  intro t layout h
  cases h

theorem Truthful.compile (hc : c.Truthful) {s : Schema} (h : c.compile s = .ok (layout, c')) :
    c'.Truthful := by
  rcases compile_eq_ok.mp h with ⟨-, rfl⟩ | ⟨-, compiled, hcompiled, -, rfl⟩
  · exact hc
  · exact Table.forall_find?_insertAll hc (Compile.claimedTag?_of_compileTree hcompiled)

theorem Truthful.submit (hc : c.Truthful) (s : Schema) : ((submit s).run c).2.Truthful := by
  rw [submit_run]
  cases h : c.compile s with
  | error e => exact hc
  | ok result => exact hc.compile h

theorem Truthful.submitAll (hc : c.Truthful) (schemas : List Schema) :
    ((submitAll schemas).run c).2.Truthful := by
  induction schemas generalizing c with
  | nil => exact hc
  | cons s rest ih => exact ih (hc.submit s)

/-- A tag field with a default that cannot be read as a tag is nowhere in what comes from submitted
schemas. -/
theorem Gives.tagPlaced {settings : Settings} (h : Gives settings schemas layout) {part : Layout}
    (hpart : Within part layout) : part.TagPlaced := by
  have hG : PassedOn (fun _ => True) fun layout => ∀ part, Within part layout → part.TagPlaced :=
    fun _ _ _ _ hplaced hparts => forall_within hplaced.1 hparts
  exact h.of_passedOn (fun _ _ _ _ => True.intro) hG (fun _ _ => True.intro) part hpart

/-- **Tags.**  Whatever is submitted, no layout that comes from it, nor any nested in one, has a tag
field with a default that cannot be read as a tag, and the layout under a tag is that of a record with
a tag field of one byte at the front, whose default as an unsigned number is the tag.  A record that
has no fields of its own has in its first byte what the field makes of the default: the tag, if the
field is an integer and the default no floating-point number below zero. -/
theorem byTag?_truthful (settings : Settings) (hschemas : ∀ s ∈ schemas, s.Distinct) :
    (∀ layout part, Gives settings schemas layout → Within part layout → part.TagPlaced)
      ∧ ∀ t layout, ((submitAll schemas).run (.ofSettings settings)).2.byTag? t = some layout →
        ∃ f d, layout.tagField? = some f ∧ f.place = .fixed ⟨0, 1⟩ ∧ f.default = some d
          ∧ d.toUInt64? = some t.toUInt64
          ∧ Span.slice ⟨0, 1⟩ (toBytes layout (.record [])) = defaultSlot f (zeros 1)
          ∧ ∀ p, f.layout = .primitive p → p.IsByte →
            (∀ x, d = .float x → 0 ≤ x.truncate UInt64.size) →
            (toBytes layout (.record [])).head? = some t := by
  refine ⟨fun layout part hlayout hpart => hlayout.tagPlaced hpart, fun t layout h => ?_⟩
  have hgives : Gives settings schemas layout := Or.inr (Or.inr ⟨t, h⟩)
  have hwf : layout.WellFormed :=
    hgives.of_passedOn (fun _ hs => hs.children) passedOn_wellFormed hschemas
  obtain ⟨f, d, hfield, hplace, hdefault, hnumber⟩ :=
    claimedTag?_eq_some.mp ((truthful_ofSettings settings).submitAll schemas t layout h)
  obtain ⟨fields, hfields, hnamed⟩ := Option.bind_eq_some_iff.mp hfield
  have hf : f ∈ fields := (fieldNamed?_spec hnamed).1
  refine ⟨f, d, hfield, hplace, hdefault, hnumber, hwf.slice_toBytes hfields hf hplace _, ?_⟩
  intro p hp hbyte hd
  rw [hwf.head?_toBytes hfields hf hplace hp hbyte (x := d) (by rw [Field.pick?, hdefault]; rfl),
    Value.byte_eq hnumber hd]

/-- A tag behind another field is rejected; a signed byte holds a tag above its range. -/
theorem byTag?_truthful_signed :
    let tag : Schema := (Schema.scalar .integer .int8).withDefault (.number (.natural 200))
    let late : Schema := { type := some .object, properties := [("id", tag), ("tag", tag)] }
    let signed : Schema := { type := some .object, properties := [("tag", tag)] }
    ∃ layout place, ((submitAll [late, signed]).run (.ofSettings ⟨0⟩)).1
        = [.error (.misplacedTag place), .ok layout]
      ∧ ((submitAll [late, signed]).run (.ofSettings ⟨0⟩)).2.byTag? 200 = some layout
      ∧ layout.TagPlaced ∧ (toBytes layout (.record [])).head? = some 200 := by
  intro tag late signed
  have hlate : late.Distinct := Schema.distinct_of_leaves (by decide) (by decide)
  have hsigned : signed.Distinct := Schema.distinct_of_leaves (by decide) (by decide)
  have hschemas : ∀ s ∈ [late, signed], s.Distinct := by
    intro s hs
    rcases List.mem_cons.mp hs with rfl | hs
    · exact hlate
    · rw [List.mem_singleton.mp hs]
      exact hsigned
  obtain ⟨hplaced, htags⟩ := byTag?_truthful ⟨0⟩ hschemas
  obtain ⟨f, d, hfield, -, hdefault, -, -, hbyte⟩ := htags 200 _ rfl
  cases hfield
  cases hdefault
  exact ⟨_, _, rfl, rfl, hplaced _ _ (Or.inr (Or.inr ⟨200, rfl⟩)) (.self _),
    hbyte .int8 rfl (Or.inl rfl) fun x hx => by cases hx⟩

/-- A truth value is accepted as a tag field, and five as its default: the record is found under
five, and begins with one. -/
theorem byTag?_boolean :
    let tag : Schema := ({ type := some .boolean } : Schema).withDefault (.number (.natural 5))
    let s : Schema := { type := some .object, properties := [("tag", tag)] }
    s.Distinct ∧ ∃ layout f, ((submitAll [s]).run (.ofSettings ⟨0⟩)).2.byTag? 5 = some layout
      ∧ layout.tagField? = some f ∧ f.layout = .primitive .bool
      ∧ (toBytes layout (.record [])).head? = some 1 := by
  intro tag s
  exact ⟨Schema.distinct_of_leaves (by decide) (by decide), _, _, rfl, rfl, rfl, by decide +kernel⟩

end Catalog

end BinarySchema
