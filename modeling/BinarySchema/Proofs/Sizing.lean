/-
# Sizes of what is written

How many bytes a value takes is said beforehand by `freshLength` and `encodedLength`, which follow the
layout by themselves.  The writers take at most as many, whatever the room behind them, and exactly
as many where only texts and blobs are cut off (`Layout.length_encode_of_room`).

The number of bytes that a value takes depends on the layout, the value and the number of bytes that
there are (`WellFormed.length_write_congr`): neither on what these hold, nor on what becomes of those
that the value does not supply.
-/
import BinarySchema.Proofs.Splice

namespace BinarySchema

namespace Layout

variable {layout item : Layout} {v : Value} {u u' : Unsupplied} {b c : Bytes}
  {fields : List (Field Layout)} {part : Option Part} {parts : List (Option Part)}

/-! ## Parts -/

/-- The number of bytes taken depends on the number of bytes that there are. -/
def CountsLength (put : Bytes → Written) : Prop :=
  ∀ b c : Bytes, b.length = c.length → (put b).length = (put c).length

theorem length_placeOne_congr (hkeep : ∀ p, part = some p → Keeps p.put)
    (hcounts : ∀ p, part = some p → CountsLength p.put) (h : b.length = c.length) :
    (placeOne part b).1.length = (placeOne part c).1.length := by
  cases part with
  | none => rfl
  | some p =>
    rcases le_or_gt p.need b.length with hfits | hlong
    · have hb := hkeep p rfl (b.take p.need)
      have hc := hkeep p rfl (c.take p.need)
      rw [placeOne_of_le hfits, placeOne_of_le (by omega), Written.length_value (by omega),
        Written.length_value (by omega)]
      exact hcounts p rfl _ _ (by rw [List.length_take, List.length_take, h])
    · rw [placeOne_of_lt hlong, placeOne_of_lt (by omega)]

/-- **Parts.**  The chunks of parts are as long in all byte strings of one length. -/
theorem map_length_place_congr (hkeep : AllKeep parts)
    (hcounts : ∀ part ∈ parts, ∀ p, part = some p → CountsLength p.put) (h : b.length = c.length) :
    (place parts b).1.map List.length = (place parts c).1.map List.length := by
  induction parts generalizing b c with
  | nil => rfl
  | cons part parts ih =>
    have hfirst := length_placeOne_congr hkeep.head (hcounts part List.mem_cons_self) h
    have hb := (length_placeOne hkeep.head b).1
    have hc := (length_placeOne hkeep.head c).1
    have hrest := ih hkeep.tail (fun q hq => hcounts q (List.mem_cons_of_mem _ hq))
      (b := (placeOne part b).2) (c := (placeOne part c).2) (by omega)
    rw [place, place]
    dsimp only
    rw [List.map_cons, List.map_cons, hfirst, hrest]

theorem length_place_congr (hkeep : AllKeep parts)
    (hcounts : ∀ part ∈ parts, ∀ p, part = some p → CountsLength p.put) (h : b.length = c.length) :
    (place parts b).1.flatten.length = (place parts c).1.flatten.length :=
  length_flatten_congr (map_length_place_congr hkeep hcounts h)

section Lists

variable {size : Value → Nat} {put : Value → Bytes → Written}

theorem countsLength_itemParts (hcounts : ∀ i, CountsLength (put i)) (items : List Value) :
    ∀ part ∈ itemParts size put items, ∀ p, part = some p → CountsLength p.put := by
  intro part hpart p hp
  obtain ⟨i, -, hi⟩ := List.mem_map.mp hpart
  rw [hp] at hi
  split_ifs at hi
  rw [← Option.some.inj hi]
  exact hcounts i

theorem length_writeVector_congr (hkeeps : ∀ i, Keeps (put i))
    (hcounts : ∀ i, CountsLength (put i)) (items : List Value) :
    CountsLength (writeVector size put items) := by
  intro b c h
  rcases Nat.lt_or_ge b.length (headerLength 0) with hshort | hroom
  · rw [writeVector, writeVector, if_pos hshort, if_pos (by omega)]
    rfl
  · have hkeep := allKeep_itemParts hkeeps size (items.take (vectorCount items.length b.length))
    have hplace := length_place_congr hkeep (countsLength_itemParts hcounts _)
      (b := b.drop (headerLength (vectorCount items.length b.length)))
      (c := c.drop (headerLength (vectorCount items.length b.length)))
      (by rw [List.length_drop, List.length_drop, h])
    rw [writeVector_eq _ hroom rfl hkeep rfl, writeVector_eq _ (by omega) (by rw [h]) hkeep rfl,
      length_vectorImage, length_vectorImage, hplace, length_place_fst, length_place_fst]

theorem length_writeDict_congr {keyLength : Nat} {putKey : String → Bytes → Bytes}
    (hkeeps : ∀ i, Keeps (put i)) (hcounts : ∀ i, CountsLength (put i))
    (hkeys : ∀ name slot, slot.length = keyLength → (putKey name slot).length = keyLength)
    (entries : List (String × Value)) :
    CountsLength (writeDict keyLength putKey size put entries) := by
  intro b c h
  rcases Nat.lt_or_ge b.length (dictOverhead keyLength 0) with hshort | hroom
  · rw [writeDict, writeDict, if_pos hshort, if_pos (by omega)]
    rfl
  · obtain ⟨taken, htaken⟩ : ∃ taken,
        entries.take (dictCount keyLength entries.length b.length) = taken := ⟨_, rfl⟩
    have hoverhead : dictOverhead keyLength taken.length ≤ b.length := by
      rw [← htaken, List.length_take, Nat.min_eq_left (dictCount_le _ _ _)]
      exact dictOverhead_dictCount_le _ hroom
    have hvalues : (placeValues keyLength size put taken b).1.flatten.length
        = (placeValues keyLength size put taken c).1.flatten.length := by
      apply length_place_congr (allKeep_itemParts hkeeps size _) (countsLength_itemParts hcounts _)
      simp only [List.length_drop, List.length_take, valueRoom, h]
    -- all keys have one length
    have hkeysLength : ∀ d : Bytes, d.length = b.length →
        (placeKeys keyLength putKey size put taken d).flatten.length = taken.length * keyLength := by
      intro d hd
      rw [length_flatten_of_length_eq (length_of_mem_placeKeys size put hkeys (by omega)),
        length_placeKeys]
    have htaken' : entries.take (dictCount keyLength entries.length c.length) = taken := by
      rw [← h]
      exact htaken
    rw [writeDict_eq size hkeeps hkeys hroom htaken,
      writeDict_eq size hkeeps hkeys (by omega) htaken', length_dictImage, length_dictImage,
      hkeysLength b rfl, hkeysLength c h.symm, length_vectorImage, length_vectorImage, hvalues,
      length_placeValues_fst, length_placeValues_fst]

end Lists

/-! ## All layouts -/

/-- What a value takes of the bytes that there are, over the defaults of its layout or not. -/
theorem CountsLength.encodeOver (hkeep : layout.KeepsLength)
    (h : ∀ v, CountsLength (write .kept layout v)) (v : Value) :
    CountsLength (encodeOver layout v) :=
  fun b c hbc => h v _ _ (by rw [hkeep.2, hkeep.2, hbc])

/-- The number of bytes that a content takes depends on the number of bytes that there are. -/
theorem countsLength_writeContent (cap : Option Nat) (content : Bytes) :
    CountsLength (writeContent cap content) := by
  intro b c h
  rw [writeContent, writeContent, h]

theorem countsLength_optionalParts
    (hcounts : ∀ f ∈ fields, ∀ x, CountsLength (encodeOver f.layout x)) (v : Value) :
    ∀ part ∈ optionalParts fields v, ∀ p, part = some p → CountsLength p.put := by
  intro part hpart p hp
  obtain ⟨f, hf, rfl⟩ := List.mem_map.mp hpart
  obtain ⟨x, -, hx⟩ := Option.bind_eq_some_iff.mp hp
  split_ifs at hx
  rw [← Option.some.inj hx]
  exact hcounts f (mem_of_mem_optionals hf) x

/-- **Counting.**  The number of bytes that a value takes depends neither on what there was nor on
what becomes of it. -/
theorem WellFormed.length_write_congr (hwf : layout.WellFormed) (v : Value)
    (h : b.length = c.length) : (write u layout v b).length = (write u' layout v c).length := by
  induction hwf generalizing v u u' b c with
  | primitive p =>
    rw [write, write, h]
    split_ifs <;> rfl
  | text cap =>
    rw [write, write]
    exact countsLength_writeContent cap v.bytes b c h
  | blob cap =>
    rw [write, write]
    exact countsLength_writeContent cap v.bytes b c h
  | array capacity hitem hstride ih =>
    rw [write, write]
    dsimp only
    rw [h]
  | packed p capacity =>
    rw [write, write]
    dsimp only
    rw [h]
  | vector limit hitem ih =>
    rw [write_vector, write_vector]
    exact length_writeVector_congr hitem.keepsLength.encodeOver
      (CountsLength.encodeOver hitem.keepsLength fun i b c hbc => ih i hbc) _ b c h
  | dict hkey hlength hvalue ihkey ihvalue =>
    rw [write_dict, write_dict]
    exact length_writeDict_congr hvalue.keepsLength.encodeOver
      (CountsLength.encodeOver hvalue.keepsLength fun i b c hbc => ihvalue i hbc)
      (length_putKey hkey.keepsLength _) _ b c h
  | object hparts harranged hfixed hnames ih =>
    rw [write, write, h]
    split_ifs <;> rfl
  | @map fields hparts harranged hnames ih =>
    have hkeep : ∀ f ∈ fields, f.layout.KeepsLength := fun f hf => (hparts f hf).keepsLength
    rcases Nat.lt_or_ge b.length (dataStart fields) with hshort | hroom
    · rw [write_of_lt hshort, write_of_lt (by rw [leastLength]; omega)]
      rfl
    · have hregion := le_trans (fixedRegion_le_dataStart fields) hroom
      have hplace := length_place_congr (allKeep_optionalParts hkeep v)
        (countsLength_optionalParts (fun f hf => CountsLength.encodeOver (hkeep f hf)
          fun x b c hbc => ih f hf x hbc) v)
        (b := b.drop (dataStart fields)) (c := c.drop (dataStart fields))
        (by rw [List.length_drop, List.length_drop, h])
      rw [write_map harranged hkeep hroom rfl, write_map harranged hkeep (by omega) rfl,
        length_mapImage, length_mapImage, length_fixedBytes hkeep hregion,
        length_fixedBytes hkeep (by omega), hplace, length_place_fst, length_place_fst]

theorem WellFormed.length_encodeOver (hwf : layout.WellFormed) (v : Value)
    (h : b.length = c.length) : (encodeOver layout v b).length = (encode layout v c).length :=
  hwf.length_write_congr v ((hwf.keepsLength.2 b).trans h)

/-- A value that asks for bytes takes some, where it has as many as it asks for. -/
theorem WellFormed.length_value_pos (hwf : layout.WellFormed)
    (hb : b.length = encodedLength layout v) (hpos : 0 < b.length) :
    0 < (encodeOver layout v b).value.length := by
  by_cases htable : layout.IsTable
  · refine (hwf.writesSound .kept v (seed layout b) ?_).length_pos htable
    rw [hwf.keepsLength.2, hb]
    exact leastLength_le_encodedLength layout v
  · -- anything else takes as many bytes as it asks for
    have hfills : Fills (encodeOver layout v) b.length := by
      cases layout with
      | text cap => exact fills_encodeOver_content trivial (le_of_eq hb)
      | blob cap => exact fills_encodeOver_content trivial (le_of_eq hb)
      | vector | dict | map => exact absurd trivial htable
      | primitive | array | packed | object =>
        rw [encodedLength] at hb
        exact hwf.fills_of_fixedLength (congrArg some hb.symm) v
    obtain ⟨e, he, hput⟩ := hfills.exists_eq
    rw [hput b rfl, Written.value, ← he, List.take_length, he]
    exact hpos

/-- Where there is room for a value, the number of bytes that it takes does not depend on the room. -/
theorem WellFormed.length_encodeOver_of_le (hwf : layout.WellFormed) (v : Value)
    (hroom : freshLength layout v ≤ b.length) :
    (encodeOver layout v b).length = (encodeOver layout v (zeros (freshLength layout v))).length := by
  have hfront : (b.take (freshLength layout v)).length = freshLength layout v := by
    rw [List.length_take, Nat.min_eq_left hroom]
  conv_lhs => rw [← List.take_append_drop (freshLength layout v) b]
  rw [encodeOver_append_of_le hwf (le_of_eq hfront.symm)]
  exact hwf.length_write_congr v (by rw [hwf.keepsLength.2, hwf.keepsLength.2, hfront, length_zeros])

/-- **Sizing.**  Where there is room for a value, it takes as many bytes in all byte strings, with
zeros for what it does not supply or over the defaults of the layout, and no more than its size.  It
takes exactly its size if the layout cuts off only texts and blobs, and over the defaults it then
fills a slot of just so many bytes as it needs. -/
theorem length_encode_of_room (hlayout : layout.IsCompiled) (v : Value) :
    (∃ k ≤ freshLength layout v, ∀ b : Bytes, freshLength layout v ≤ b.length →
      (encode layout v b).length = k ∧ (encodeOver layout v b).length = k)
    ∧ (layout.CapsContents →
      (∀ b : Bytes, freshLength layout v ≤ b.length →
        (encode layout v b).length = freshLength layout v
          ∧ (encodeOver layout v b).length = freshLength layout v)
      ∧ (toBytes layout v).length = freshLength layout v
      ∧ ∀ b : Bytes, b.length = encodedLength layout v →
        (encodeOver layout v b).length = encodedLength layout v) := by
  have hwf := hlayout.wellFormed
  have hlengths : ∀ b : Bytes, (encode layout v b).length = (encodeOver layout v b).length :=
    fun b => (hwf.length_encodeOver v rfl).symm
  constructor
  · refine ⟨(encodeOver layout v (zeros (freshLength layout v))).length, ?_, fun b hroom => ?_⟩
    · have hle := (hwf.keepsLength.encodeOver v (zeros (freshLength layout v))).2
      rwa [length_zeros] at hle
    · rw [hlengths]
      exact ⟨hwf.length_encodeOver_of_le v hroom, hwf.length_encodeOver_of_le v hroom⟩
  · intro hcaps
    have hover : ∀ b : Bytes, freshLength layout v ≤ b.length →
        (encodeOver layout v b).length = freshLength layout v := by
      intro b hroom
      obtain ⟨e, he, hlength⟩ := hwf.splices_encodeOver hcaps v hroom
      rw [he.2 b rfl, hlength]
    refine ⟨fun b hroom => ?_, ?_, fun b hb => ?_⟩
    · rw [hlengths]
      exact ⟨hover b hroom, hover b hroom⟩
    · rw [toBytes, Written.length_value]
      · exact hover _ (le_of_eq (length_zeros _).symm)
      · rw [(hwf.keepsLength.encodeOver v _).1]
        exact (hwf.keepsLength.encodeOver v _).2
    · obtain ⟨e, -, hput⟩ := (hwf.fills hcaps v).exists_eq
      rw [hput b hb]

/-- A crew with two names, one of them missing, and a nick that is cut off after three bytes. -/
theorem length_encode_of_room_crew :
    let crew : Layout := .map [⟨"age", .primitive .uint8, .fixed ⟨0, 1⟩, some (.int 30), none⟩,
      ⟨"names", .vector (.text none) none, .optional 0, none, none⟩,
      ⟨"nick", .text (some 3), .optional 1, none, some 3⟩]
    let v : Value := .record
      [("names", .list [.text "Ada", .null]), ("nick", .text "Magellan")]
    crew.CapsContents ∧ freshLength crew v = 35 ∧ (toBytes crew v).length = 35
      ∧ ∀ b : Bytes, 35 ≤ b.length →
        (encode crew v b).length = 35 ∧ (encodeOver crew v b).length = 35 := by
  intro crew v
  have hcrew : crew.IsCompiled := .of_eval ⟨0⟩ (.object
    [("type", .text "object"), ("btype", .text "map"), ("required", .list [.text "age"]),
      ("properties", .object
        [("age", .object [("type", .text "integer"), ("btype", .text "uint8"),
          ("default", .number (.natural 30))]),
        ("names", .object [("type", .text "array"), ("btype", .text "vector"),
          ("items", .object [("type", .text "string")])]),
        ("nick", .object [("type", .text "string"), ("maxLength", .number (.natural 3))])])])
    (by cbv)
  have hcaps : crew.CapsContents := by
    refine .map ?_ ?_
    · simp only [List.forall_mem_cons, List.not_mem_nil, false_implies, implies_true, and_true]
      exact ⟨(fun _ h => by cases h), (capsContents_text _).vector _, capsContents_text _⟩
    · simp only [List.forall_mem_cons, List.not_mem_nil, false_implies, implies_true, and_true]
      exact ⟨fun h => absurd rfl h, fun _ h => absurd rfl h, fun _ _ => True.intro⟩
  obtain ⟨hall, hbytes, -⟩ := (length_encode_of_room hcrew v).2 hcaps
  have hsize : freshLength crew v = 35 := by decide +kernel
  rw [hsize] at hall hbytes
  exact ⟨hcaps, hsize, hbytes, hall⟩

end Layout

end BinarySchema
