/-
# Finding the items of an array

An item is looked for by the bytes that it has where nothing is supplied but itself, while the items
of an array are stored over the defaults of their layout.  The search itself is exact: it finds the
first item whose bytes are the ones looked for (`indexOf?_array`).  An item is therefore found, or
another one before it that is stored alike, just where the two encodings are the same, and that is
where the item supplies every leaf that has a default (`WellFormed.toBytes_eq_needle_iff`,
`indexOf?_stored`).  One that leaves a default to be filled in is not found (`not_indexOf?_stored`).
-/
import BinarySchema.Proofs.Defaults
import BinarySchema.Proofs.Leaves
import BinarySchema.Proofs.Packed

namespace BinarySchema

namespace Layout

variable {layout item : Layout} {stride capacity n i j : Nat} {items : List Value} {v x : Value}

/-! ## Encodings over zeros and over the defaults -/

/-- Zeros that are kept are zeros, so clearing them first makes no difference. -/
theorem WellFormed.encode_zeros (hwf : layout.WellFormed) (hlayout : layout.fixedLength? = some n)
    (v : Value) : encode layout v (zeros n) = amend layout v (zeros n) := by
  have hprepare (n : Nat) : Unsupplied.cleared.prepare (zeros n) = zeros n := by
    rw [Unsupplied.prepare, length_zeros]
  induction hwf generalizing n v with
  | primitive | text | blob | packed =>
    symm
    apply IsLeaf.amend_eq_encode
    exact True.intro
  | @array item stride capacity hitem hstride ih =>
    have hsize : capacity * stride = (zeros n).length := by
      rw [length_zeros]
      exact Option.some.inj hlayout
    have hslot : ∀ i, supplyItem .cleared item i (zeros stride)
        = supplyItem .kept item i (zeros stride) := by
      intro i
      rw [supplyItem, supplyItem]
      split_ifs
      · rfl
      · exact congrArg Written.bytes (ih hstride i)
    have hroom : (v.items.take capacity).length * stride ≤ n := by
      rw [length_zeros] at hsize
      rw [← hsize]
      exact Nat.mul_le_mul_right _ (List.length_take_le _ _)
    rw [encode, amend, write_array .cleared v hsize, write_array .kept v hsize, hprepare,
      onSlots_zeros_congr hslot hroom]
    rfl
  | @object fields hparts harranged hfixed hnames ih =>
    have hsize : fixedRegion fields = (zeros n).length := by
      rw [length_zeros]
      exact Option.some.inj hlayout
    rw [encode, amend, write_object .cleared v hsize, write_object .kept v hsize, hprepare]
    rfl
  | _ => cases hlayout

/-- What is looked for are the bytes of a value over zeros. -/
theorem WellFormed.needle_eq_supply (hwf : layout.WellFormed)
    (hlayout : layout.fixedLength? = some n) (hx : x ≠ .null) :
    needle layout n x = supply layout (some x) (zeros n) := by
  rw [needle, hwf.encode_zeros hlayout, supply_some (Value.nonNull_some hx)]

theorem WellFormed.toBytes_null (hwf : layout.WellFormed) (hlayout : layout.fixedLength? = some n) :
    toBytes layout .null = seed layout (zeros n) := by
  rw [hwf.toBytes_of_fixedLength hlayout, encodeOver, amend_null_seed n hwf hlayout]

/-- What is supplied to the defaults is encoded by itself; a hole leaves the defaults as they are. -/
theorem WellFormed.supply_seed (hwf : layout.WellFormed) (hlayout : layout.fixedLength? = some n)
    (given : Option Value) :
    supply layout given (seed layout (zeros n)) = toBytes layout (given.getD .null) := by
  cases hgiven : Value.nonNull given with
  | none =>
    have hnull : given.getD .null = .null := by
      cases given with
      | none => rfl
      | some x =>
        by_contra hx
        rw [Option.getD_some] at hx
        rw [Value.nonNull_some hx] at hgiven
        cases hgiven
    rw [supply_none hgiven, hnull, hwf.toBytes_null hlayout]
  | some x =>
    obtain rfl := Value.eq_some_of_nonNull hgiven
    have hx : x ≠ .null := by
      rintro rfl
      cases hgiven
    rw [Option.getD_some, hwf.toBytes_eq_supply hlayout hx]

/-- Where the value gives nothing for a leaf, the layout has no default for it but zeros. -/
def SuppliesDefaults (layout : Layout) (v : Value) : Prop :=
  ∀ path leaf span, layout.placed? path = some (leaf, span) → leaf.IsLeaf →
    Value.nonNull (v.follow? path) = none → span.slice (toBytes layout .null) = zeros span.length

/-- **Two encodings.**  A value has the same bytes over zeros and over the defaults just where it
supplies every leaf that has a default. -/
theorem WellFormed.toBytes_eq_needle_iff (hwf : layout.WellFormed)
    (hlayout : layout.fixedLength? = some n) (hx : x ≠ .null) :
    toBytes layout x = needle layout n x ↔ layout.SuppliesDefaults x := by
  have hseed : layout.fixedLength? = some (seed layout (zeros n)).length := by
    rw [hwf.keepsLength.2, length_zeros, hlayout]
  have hzeros : layout.fixedLength? = some (zeros n).length := by rw [length_zeros, hlayout]
  rw [hwf.toBytes_eq_supply hlayout hx, hwf.needle_eq_supply hlayout hx]
  constructor
  · intro hsame path leaf span hpath hleaf hnone
    obtain ⟨-, -, hinside⟩ := hwf.placed? hlayout hpath
    have hbytes := congrArg span.slice hsame
    rw [hwf.slice_supply_leaf hseed hpath hleaf, hwf.slice_supply_leaf hzeros hpath hleaf,
      Option.bind_some, hnone] at hbytes
    rw [hwf.toBytes_null hlayout]
    exact hbytes.trans (slice_zeros hinside)
  · intro hsupplies
    have hkeep := length_supply hwf.keepsLength (some x)
    refine hwf.toldByLeaves _ _ (by rw [hkeep]; exact hseed) ?_ ?_
    · rw [hkeep, hkeep, hwf.keepsLength.2]
    · intro path leaf span hpath hleaf
      obtain ⟨-, -, hinside⟩ := hwf.placed? hlayout hpath
      rw [hwf.slice_supply_leaf hseed hpath hleaf, hwf.slice_supply_leaf hzeros hpath hleaf,
        Option.bind_some]
      cases hgiven : Value.nonNull (x.follow? path) with
      | some y => rfl
      | none =>
        have hdefault := hsupplies path leaf span hpath hleaf hgiven
        rw [hwf.toBytes_null hlayout] at hdefault
        exact hdefault.trans (slice_zeros hinside).symm

/-! ## Arrays -/

/-- The slots of an array hold the encodings of its items, and the defaults behind the last one. -/
theorem WellFormed.slice_toBytes_array (hwf : (Layout.array item stride capacity).WellFormed)
    (hi : i < capacity) :
    Span.slice ⟨i * stride, stride⟩ (toBytes (.array item stride capacity) (.list items))
      = toBytes item (items[i]?.getD .null) := by
  have hlayout : (Layout.array item stride capacity).fixedLength? = some (capacity * stride) := rfl
  have hlength : (Layout.array item stride capacity).fixedLength?
      = some (seed (.array item stride capacity) (zeros (capacity * stride))).length := by
    rw [hwf.keepsLength.2, length_zeros, hlayout]
  have hpart : Layout.placedPart? (.array item stride capacity) (.item i)
      = some (item, ⟨i * stride, stride⟩) := if_pos hi
  obtain ⟨hitem, hstride, hinside⟩ := hwf.placedPart? hlayout hpart
  rw [hwf.toBytes_eq_supply hlayout (by simp), hwf.slice_supply_one hlength hpart,
    slice_seed_array hitem.keepsLength (length_zeros _).symm hi, slice_zeros hinside,
    Option.bind_some, Value.part?_item, hitem.supply_seed hstride]
  rfl

/-- **The search is exact.**  The first item is found, at or after `start`, whose bytes are the ones
that are looked for. -/
theorem WellFormed.indexOf?_array (hwf : (Layout.array item stride capacity).WellFormed)
    (items : List Value) (x : Value) (start : Nat) :
    indexOf? (.array item stride capacity) (toBytes (.array item stride capacity) (.list items)) x
        start = some j
      ↔ IsLeast {k | start ≤ k ∧ k < capacity
          ∧ toBytes item (items[k]?.getD .null) = needle item stride x} j := by
  have hlength := hwf.length_toBytes_eq rfl (.list items)
  have hcount := slotCount_eq_capacity (le_of_eq hlength.symm)
  have hset : {k | start ≤ k ∧ k < start + (capacity - start)
        ∧ (Span.slice ⟨itemOffset stride k, stride⟩
          (toBytes (.array item stride capacity) (.list items)) == needle item stride x) = true}
      = {k | start ≤ k ∧ k < capacity
        ∧ toBytes item (items[k]?.getD .null) = needle item stride x} := by
    ext k
    constructor
    · rintro ⟨hle, hlt, hbytes⟩
      have hk : k < capacity := by omega
      rw [beq_iff_eq, itemOffset, hwf.slice_toBytes_array hk] at hbytes
      exact ⟨hle, hk, hbytes⟩
    · rintro ⟨hle, hk, hbytes⟩
      refine ⟨hle, by omega, beq_iff_eq.mpr ?_⟩
      rw [itemOffset, hwf.slice_toBytes_array hk, hbytes]
  rw [indexOf?, hcount, firstFrom_eq_some_iff, hset]

/-! ## Runs of slots -/

/-- The layout holds `capacity` items of `stride` bytes each, one behind the other. -/
inductive IsRun : Layout → (item : Layout) → (stride capacity : Nat) → Prop
  | array (item : Layout) (stride capacity : Nat) :
      IsRun (.array item stride capacity) item stride capacity
  | packed (p : Primitive) (capacity : Nat) : IsRun (.packed p capacity) (.primitive p) p.width capacity

/-- A run is encoded and searched as the array of so many items as there are slots. -/
theorem IsRun.exists_array (hrun : IsRun layout item stride capacity) (hwf : layout.WellFormed)
    (v : Value) {count : Nat} (hcount : itemCount layout (toBytes layout v) = count) :
    (Layout.array item stride count).WellFormed
      ∧ toBytes layout v = toBytes (.array item stride count) v
      ∧ ∀ x start, indexOf? layout (toBytes layout v) x start
        = indexOf? (.array item stride count) (toBytes layout v) x start := by
  cases hrun with
  | array =>
    have hslots : slotCount stride capacity (toBytes (.array item stride capacity) v) = capacity :=
      slotCount_eq_capacity (le_of_eq (hwf.length_toBytes_eq rfl v).symm)
    obtain rfl : capacity = count := hslots.symm.trans hcount
    exact ⟨hwf, rfl, fun x start => rfl⟩
  | packed p =>
    obtain ⟨hsmall, hbytes, hindex⟩ := toBytes_packed_slotCount v hcount
    have harray : toBytes (.packed p count) v = toBytes (.array (.primitive p) p.width count) v := by
      rw [WellFormed.toBytes_of_fixedLength (.packed p count) (congrArg some (packedLength_eq hsmall)),
        encodeOver_packed hsmall v (by rw [length_zeros]),
        WellFormed.toBytes_of_fixedLength ((WellFormed.primitive p).array count rfl) rfl]
    refine ⟨(WellFormed.primitive p).array count rfl, hbytes.trans harray, fun x start => ?_⟩
    rw [hindex, indexOf?_packed hsmall]

/-- **Stored items.**  In a run of items that is encoded by itself, the search finds the first item
whose encoding over the defaults is that of the given one over zeros.  For an item of the run that is
no hole the two are the same just where it supplies every leaf that has a default; and then it is
found, unless an earlier one is.  There are as many items as the run has room for, unless its size
has wrapped around. -/
theorem indexOf?_stored (hlayout : layout.IsCompiled) (hrun : IsRun layout item stride capacity)
    (items : List Value) :
    let b := toBytes layout (.list items)
    (layout.fixedLength? = some (capacity * stride) → itemCount layout b = capacity)
    ∧ (∀ x start j, indexOf? layout b x start = some j
      ↔ IsLeast {k | start ≤ k ∧ k < itemCount layout b
          ∧ toBytes item (items[k]?.getD .null) = needle item stride x} j)
    ∧ ∀ i x, items[i]? = some x → x ≠ .null → i < itemCount layout b →
      (toBytes item x = needle item stride x ↔ item.SuppliesDefaults x)
      ∧ (item.SuppliesDefaults x → ∃ j ≤ i, indexOf? layout b x 0 = some j) := by
  intro b
  generalize hcount : itemCount layout b = count
  obtain ⟨hwf, hbytes, hindex⟩ := hrun.exists_array hlayout.wellFormed (.list items) hcount
  have hexact : ∀ x start j, indexOf? layout b x start = some j
      ↔ IsLeast {k | start ≤ k ∧ k < count
          ∧ toBytes item (items[k]?.getD .null) = needle item stride x} j := by
    intro x start j
    rw [hindex, hbytes, hwf.indexOf?_array]
  refine ⟨fun hsize => ?_, hexact, fun i x hi hx hslot => ?_⟩
  · have hroom : capacity * stride ≤ b.length :=
      le_of_eq (hlayout.wellFormed.length_toBytes_eq hsize _).symm
    rw [← hcount]
    cases hrun with
    | array => exact slotCount_eq_capacity hroom
    | packed => exact slotCount_eq_capacity hroom
  · cases hwf with
    | array _ hitem hstride =>
      have hsame := hitem.toBytes_eq_needle_iff hstride hx
      refine ⟨hsame, fun hsupplies => ?_⟩
      -- the item itself is one that is found, and so a first one is
      have hself : i ∈ {k | 0 ≤ k ∧ k < count
          ∧ toBytes item (items[k]?.getD .null) = needle item stride x} := by
        show 0 ≤ i ∧ i < count ∧ toBytes item (items[i]?.getD .null) = needle item stride x
        rw [hi, Option.getD_some]
        exact ⟨Nat.zero_le i, hslot, hsame.mpr hsupplies⟩
      have hleast := isLeast_csInf ⟨i, hself⟩
      exact ⟨_, hleast.2 hself, (hexact x 0 _).mpr hleast⟩

/-- The layout of up to three ages, each of which is five where it is not given. -/
theorem isCompiled_ages :
    (Layout.array (.object [⟨"age", .primitive .uint8, .fixed ⟨0, 1⟩, some (.int 5), none⟩])
      1 3).IsCompiled :=
  .of_eval ⟨0⟩ (.object [("type", .text "array"), ("maxItems", .number (.natural 3)),
    ("items", .object [("type", .text "object"), ("properties", .object
      [("age", .object [("type", .text "integer"), ("btype", .text "uint8"),
        ("default", .number (.natural 5))])])])]) (by cbv)

/-- Behind an age that is left to its default, the one that is given is found. -/
theorem indexOf?_stored_ages :
    let item : Layout := .object [⟨"age", .primitive .uint8, .fixed ⟨0, 1⟩, some (.int 5), none⟩]
    let layout : Layout := .array item 1 3
    let x : Value := .record [("age", .int 7)]
    let b := toBytes layout (.list [.record [], x, .null])
    toBytes item x = needle item 1 x ∧ item.SuppliesDefaults x
      ∧ ∃ j ≤ 1, indexOf? layout b x 0 = some j := by
  intro item layout x b
  obtain ⟨-, -, hstored⟩ := indexOf?_stored isCompiled_ages (.array item 1 3) [.record [], x, .null]
  obtain ⟨hsame, hfound⟩ := hstored 1 x rfl (by simp [x]) (by decide +kernel)
  have hbytes : toBytes item x = needle item 1 x := by decide +kernel
  exact ⟨hbytes, hsame.mp hbytes, hfound (hsame.mp hbytes)⟩

/-- An age that is left to its default is not found, not even as the only item: it is stored as five
and looked for as zero. -/
theorem not_indexOf?_stored :
    ¬ ∀ (layout item : Layout) (stride capacity : Nat) (items : List Value) (i : Nat) (x : Value),
      layout.IsCompiled → IsRun layout item stride capacity → items.length ≤ capacity →
      items[i]? = some x → x ≠ .null →
      ∃ j ≤ i, indexOf? layout (toBytes layout (.list items)) x 0 = some j := by
  intro h
  let item : Layout := .object [⟨"age", .primitive .uint8, .fixed ⟨0, 1⟩, some (.int 5), none⟩]
  let layout : Layout := .array item 1 3
  obtain ⟨j, -, hfound⟩ := h layout item 1 3 [.record []] 0 (.record []) isCompiled_ages
    (.array item 1 3) (by decide) rfl (by simp)
  have hnone : indexOf? layout (toBytes layout (.list [.record []])) (.record []) 0 = none := by
    decide +kernel
  rw [hnone] at hfound
  cases hfound

end Layout

end BinarySchema
