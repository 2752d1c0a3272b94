/-
# Counts that are read from a header

How many items a vector or a dict has is a word of its header, which is taken as it stands.  The
table that goes with it may be cut off: then the items behind its end are holes, of which there may
be more than there are bytes (`Layout.not_itemCount_le`).

Of everything else there is no more than there are bytes (`Layout.itemCount_bounded`).  An item that
is no hole has its entries inside the byte string, each field of a dict has its key there, and where
the whole table is there, as in whatever has been encoded, so is an entry for each item.
-/
import BinarySchema.Proofs.Record
import BinarySchema.Proofs.Truncation

namespace BinarySchema

namespace Layout

/-- Values of the layout begin with a count and a table. -/
def HasTable : Layout → Prop
  | .vector _ _ | .dict _ _ _ => True
  | _ => False

variable {layout : Layout} {b : Bytes} {i : Nat}

theorem itemCount_eq_storedCount (h : layout.HasTable) (b : Bytes) :
    layout.itemCount b = storedCount b := by
  cases layout with
  | vector item limit => rfl
  | dict key keyLength value => rfl
  | _ => exact absurd h id

/-! ## Items -/

/-- A table that lies inside a byte string has an entry in it for each item. -/
theorem le_of_headerLength_le {count : Nat} (h : headerLength count ≤ b.length) :
    count ≤ b.length / Word.width := by
  simp only [headerLength, Word.width] at h ⊢
  omega

/-- A word that is found lies inside the byte string. -/
theorem fits_of_storedOffset? {offset n : Nat} (h : storedOffset? b offset = some n) :
    offset + Word.width ≤ b.length := by
  obtain ⟨w, hw, -⟩ := Option.map_eq_some_iff.mp h
  obtain ⟨bytes, hbytes, -⟩ := Option.map_eq_some_iff.mp hw
  by_contra hlong
  have hnone : Span.slice? ⟨offset, Word.width⟩ b = none := if_neg hlong
  rw [hnone] at hbytes
  cases hbytes

/-- An item that is no hole has its entries inside the byte string. -/
theorem entry_fits {span : Span} (h : vectorSpan? b i = some span) :
    entryOffset (i + 1) + Word.width ≤ b.length := by
  unfold vectorSpan? storedSpan? at h
  split_ifs at h
  obtain ⟨start, -, h⟩ := Option.bind_eq_some_iff.mp h
  obtain ⟨stop, hstop, -⟩ := Option.bind_eq_some_iff.mp h
  exact fits_of_storedOffset? hstop

theorem lt_of_vectorSpan? {span : Span} (h : vectorSpan? b i = some span) :
    i < b.length / Word.width := by
  have hfits := entry_fits h
  simp only [entryOffset, Word.width] at hfits ⊢
  omega

/-- Items beyond a number are holes, so there is no more than that number of others. -/
theorem countP_map_range_le {f : Nat → Value} {bound : Nat}
    (h : ∀ i, (f i).isNull = false → i < bound) (count : Nat) :
    ((List.range count).map f).countP (fun x => !x.isNull) ≤ bound := by
  rw [List.countP_map, List.countP_eq_length_filter]
  have hsub : (List.range count).filter ((fun x => !x.isNull) ∘ f) ⊆ List.range bound := by
    intro i hi
    rw [List.mem_filter] at hi
    exact List.mem_range.mpr (h i (by simpa using hi.2))
  have hle := (List.nodup_range.filter _).subperm hsub
  simpa using hle.length_le

/-! ## Fields of a dict -/

theorem length_setNew_le (new : List (String × Value)) :
    (Value.setNew new []).length ≤ new.length := by
  simpa using Value.sum_map_setNew_le (fun _ => 1) new []

/-- Where all names are the same, one field is set at most. -/
theorem length_setNew_of_name (name : String) {new : List (String × Value)}
    (h : ∀ field ∈ new, field.1 = name) : (Value.setNew new []).length ≤ 1 := by
  have hordered : Value.Ordered (Value.setNew new []) := Value.Ordered.setNew List.Pairwise.nil new
  have hname : ∀ field ∈ Value.setNew new [], field.1 = name := by
    intro field hfield
    rcases Value.mem_setNew hfield with hfield | hfield
    · exact h field hfield
    · exact absurd hfield List.not_mem_nil
  rcases hfields : Value.setNew new [] with _ | ⟨first, _ | ⟨second, rest⟩⟩
  · simp
  · simp
  · rw [hfields] at hordered hname
    have hlt : first.1 < second.1 :=
      (List.pairwise_cons.mp hordered).1 second List.mem_cons_self
    rw [hname first (by simp), hname second (by simp)] at hlt
    exact absurd hlt (lt_irrefl name)

theorem keyCount_le {keyLength : Nat} (h : keyLength ≠ 0) (b : Bytes) :
    keyCount keyLength b ≤ b.length := by
  rw [keyCount, if_neg h]
  calc min (storedCount b) ((b.length - keysOffset b) / keyLength)
      ≤ (b.length - keysOffset b) / keyLength := min_le_right _ _
    _ ≤ b.length - keysOffset b := Nat.div_le_self _ _
    _ ≤ b.length := Nat.sub_le _ _

/-- A dict has no more fields than there are bytes: their keys are, one behind the other, or, if they
are empty, all the same. -/
theorem length_fields_le {key value : Layout} {keyLength : Nat} {fields : List (String × Value)}
    (h : decode (.dict key keyLength value) b = .record fields) : fields.length ≤ b.length := by
  rw [decode] at h
  injection h with h
  subst h
  by_cases hzero : keyLength = 0
  · rcases b.length.eq_zero_or_pos with hempty | hpos
    · have hcount : keyCount keyLength b = 0 := by
        have hnothing : b = [] := List.length_eq_zero_iff.mp hempty
        rw [hzero, hnothing]
        decide
      rw [hcount]
      simp
    · refine le_trans (length_setNew_of_name (keyText key (decode key [])) ?_) hpos
      intro field hfield
      obtain ⟨i, -, rfl⟩ := List.mem_map.mp hfield
      have hslice : (keySpan keyLength b i).slice b = [] := by
        rw [keySpan, hzero, Span.slice, List.take_zero]
      dsimp only
      split <;> rw [hslice]
  · refine le_trans (length_setNew_le _) ?_
    rw [List.length_map, List.length_range]
    exact keyCount_le hzero b

/-! ## All byte strings -/

/-- Whatever has been encoded has its table inside the byte string. -/
theorem headerLength_encode_le (hlayout : layout.IsCompiled) (htable : layout.HasTable) (v : Value)
    (hsmall : b.length < 2 ^ 32) (hpos : 0 < (encode layout v b).length) :
    headerLength (storedCount (encode layout v b).bytes) ≤ b.length := by
  cases layout with
  | vector item limit =>
    obtain ⟨-, -, -, hheader⟩ := encode_truncated hlayout rfl v b hsmall
    exact (hheader hpos).2.1.1.2
  | dict key keyLength value =>
    obtain ⟨-, -, -, hheader⟩ := encode_truncated hlayout rfl v b hsmall
    have hfits : dictOverhead keyLength _ ≤ b.length := (hheader hpos).2.1.1.2
    rw [dictOverhead] at hfits
    omega
  | _ => exact absurd htable id

/-- **Counts.**  Where the table that the count names lies inside the byte string, each item has four
bytes of it, and as many items are decoded.  This is so for whatever has been encoded.  In any byte
string, items that are no holes have four bytes of it each, and a dict has no more fields than there
are bytes. -/
theorem itemCount_bounded (hlayout : layout.IsCompiled) (htable : layout.HasTable) (b : Bytes) :
    (headerLength (layout.itemCount b) ≤ b.length → layout.itemCount b ≤ b.length / Word.width
      ∧ ∀ items, layout.decode b = .list items → items.length ≤ b.length)
    ∧ (∀ v, b.length < 2 ^ 32 → 0 < (layout.encode v b).length →
      headerLength (layout.itemCount (layout.encode v b).bytes) ≤ b.length)
    ∧ (∀ i found, layout.itemSpan? b i = some found →
      entryOffset (i + 1) + Word.width ≤ b.length)
    ∧ (∀ items, layout.decode b = .list items →
      items.countP (fun x => !x.isNull) ≤ b.length / Word.width)
    ∧ ∀ fields, layout.decode b = .record fields → fields.length ≤ b.length := by
  simp only [itemCount_eq_storedCount htable]
  refine ⟨fun h => ⟨le_of_headerLength_le h, ?_⟩,
    fun v hsmall hpos => headerLength_encode_le hlayout htable v hsmall hpos, ?_, ?_, ?_⟩
  · intro items hitems
    cases layout with
    | vector item limit =>
      rw [decode] at hitems
      injection hitems with hitems
      rw [← hitems, List.length_map, List.length_range]
      exact le_trans (le_of_headerLength_le h) (Nat.div_le_self _ _)
    | dict key keyLength value => rw [decode] at hitems; cases hitems
    | _ => exact absurd htable id
  · intro i found hfound
    cases layout with
    | vector item limit =>
      obtain ⟨span, hspan, -⟩ := Option.map_eq_some_iff.mp hfound
      exact entry_fits hspan
    | dict key keyLength value =>
      obtain ⟨span, hspan, -⟩ := Option.map_eq_some_iff.mp hfound
      exact entry_fits hspan
    | _ => exact absurd htable id
  · intro items hitems
    cases layout with
    | vector item limit =>
      rw [decode] at hitems
      injection hitems with hitems
      rw [← hitems]
      refine countP_map_range_le (fun i hi => ?_) _
      rcases hspan : vectorSpan? b i with _ | span
      · rw [hspan] at hi
        cases hi
      · exact lt_of_vectorSpan? hspan
    | dict key keyLength value => rw [decode] at hitems; cases hitems
    | _ => exact absurd htable id
  · intro fields hfields
    cases layout with
    | vector item limit => rw [decode] at hfields; cases hfields
    | dict key keyLength value => exact length_fields_le hfields
    | _ => exact absurd htable id

theorem isCompiled_booleans : IsCompiled (.vector (.primitive .bool) none) :=
  .of_eval ⟨0⟩ (.object [("type", .text "array"), ("btype", .text "vector"),
    ("items", .object [("type", .text "boolean")])]) (by cbv)

/-- Two truth values in all their bytes. -/
theorem itemCount_bounded_booleans :
    let layout : Layout := .vector (.primitive .bool) none
    let b := layout.toBytes (.list [.bool true, .bool false])
    layout.itemCount b = 2 ∧ 2 ≤ b.length / Word.width := by
  intro layout b
  have hcount : layout.itemCount b = 2 := by decide
  obtain ⟨hbounded, -⟩ := itemCount_bounded isCompiled_booleans True.intro b
  refine ⟨hcount, ?_⟩
  rw [← hcount]
  exact (hbounded (by decide)).1

/-- A header that is all there is names five items in four bytes, and five holes are read. -/
theorem not_itemCount_le :
    let layout : Layout := .vector (.primitive .bool) none
    layout.itemCount [5, 0, 0, 0] = 5
    ∧ layout.decode [5, 0, 0, 0] = .list (List.replicate 5 .null)
    ∧ ¬ ∀ (layout : Layout) (b : Bytes), layout.IsCompiled → layout.HasTable →
      layout.itemCount b ≤ b.length / Word.width := by
  intro layout
  have hcount : layout.itemCount [5, 0, 0, 0] = 5 := by decide
  refine ⟨hcount, by rw [decode]; rfl, fun h => ?_⟩
  have hle := h layout [5, 0, 0, 0] isCompiled_booleans True.intro
  rw [hcount] at hle
  exact absurd hle (by decide)

end Layout

end BinarySchema
