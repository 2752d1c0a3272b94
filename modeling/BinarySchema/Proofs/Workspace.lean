/-
# A workspace is clean between uses

Whatever values a workspace has encoded, and whether they fitted or not, it is all zeros again
afterwards, so that each value is encoded as in a new workspace (`Workspace.encodeAll_clean`).

A value changes no byte behind those that it needs: where there is room for it, more room changes
nothing (`Layout.encodeOver_append_of_le`), and where there is not, all of the workspace is cleared.
-/
import BinarySchema.Proofs.Overwrite
import BinarySchema.Proofs.ReadSchema
import BinarySchema.Workspace

namespace BinarySchema

variable {b c : Bytes}

/-! ## Rewriting the front of a longer byte string -/

theorem onFront_append {n : Nat} (f : Bytes → Bytes) (h : n ≤ b.length) :
    onFront n f (b ++ c) = onFront n f b ++ c := by
  rw [onFront, onFront, List.take_append_of_le_length h, List.drop_append_of_le_length h,
    List.append_assoc]

theorem overlay_append {new : Bytes} (h : new.length ≤ b.length) :
    overlay new (b ++ c) = overlay new b ++ c := by
  rw [overlay_of_le h, overlay_of_le (by rw [List.length_append]; omega),
    List.drop_append_of_le_length h, List.append_assoc]

namespace Layout

variable {layout : Layout} {v : Value} {u : Unsupplied}

theorem onSlots_append {stride : Nat} {fs : List (Bytes → Bytes)}
    (h : fs.length * stride ≤ b.length) : onSlots stride fs (b ++ c) = onSlots stride fs b ++ c := by
  rw [onSlots_eq, onSlots_eq, rewriteSlots_append h, List.drop_append_of_le_length h,
    List.append_assoc]

theorem writeContent_append {cap : Option Nat} {content : Bytes}
    (h : cap.getD (capped cap content.length) ≤ b.length) :
    writeContent cap content (b ++ c)
      = ⟨(writeContent cap content b).bytes ++ c, (writeContent cap content b).length⟩ := by
  have hcapped : capped cap content.length ≤ b.length := by
    cases cap with
    | none => exact h
    | some m => exact le_trans (Nat.min_le_right _ _) h
  have hcapped' : capped cap content.length ≤ (b ++ c).length := by
    rw [List.length_append]
    omega
  unfold writeContent
  rw [Nat.min_eq_left hcapped, Nat.min_eq_left hcapped']
  dsimp only
  rw [Nat.min_eq_left h, Nat.min_eq_left (by rw [List.length_append]; omega),
    List.drop_append_of_le_length h, ← List.append_assoc]

/-! ## More room -/

/-- A layout of one size is seeded in so many bytes. -/
theorem seed_append (hwf : layout.WellFormed) (htable : ¬ layout.IsTable)
    (h : layout.fixedLength?.getD 0 ≤ b.length) : seed layout (b ++ c) = seed layout b ++ c := by
  cases hwf with
  | @array item stride capacity hitem hstride =>
    have hroom : capacity * stride ≤ b.length := h
    have hroom' : capacity * stride ≤ (b ++ c).length := by
      rw [List.length_append]
      omega
    rw [seed, seed, slotCount_eq_capacity hroom, slotCount_eq_capacity hroom',
      onSlots_append (by rw [List.length_replicate]; exact hroom)]
  | @object fields hparts harranged hfixed hnames =>
    have htemplate : (writeDefaults fields (zeros (fixedRegion fields))).length ≤ b.length := by
      rw [length_writeDefaults fun f hf => (hparts f hf).keepsLength, length_zeros]
      exact h
    rw [seed, seed, overlay_append htemplate]
  | vector limit hitem => exact absurd True.intro htable
  | dict hkey hlength hvalue => exact absurd True.intro htable
  | map hparts harranged hnames => exact absurd True.intro htable
  | _ =>
    rw [seed_eq_onFront rfl (by simp), seed_eq_onFront rfl (by simp), onFront_append _ h]

/-- A value without a table is written in so many bytes as it has on its own. -/
theorem write_append (htable : ¬ layout.IsTable) (h : freshLength layout v ≤ b.length) :
    write u layout v (b ++ c) = ⟨(write u layout v b).bytes ++ c, (write u layout v b).length⟩ := by
  have hlength : (b ++ c).length = b.length + c.length := List.length_append
  -- a region that is there is the same region in front of more bytes
  have hregion : ∀ {n : Nat}, n ≤ b.length → min n b.length = n ∧ min n (b ++ c).length = n :=
    fun hn => ⟨Nat.min_eq_left hn, Nat.min_eq_left (by omega)⟩
  cases layout with
  | primitive p =>
    have hwidth : p.width ≤ b.length := h
    rw [write, write, if_pos hwidth, if_pos (by omega)]
    dsimp only
    rw [overlay_append (by rw [Primitive.length_write]; exact hwidth)]
  | text cap =>
    rw [write, write]
    unfold freshLength encodedLength at h
    exact writeContent_append h
  | blob cap =>
    rw [write, write]
    unfold freshLength encodedLength at h
    exact writeContent_append h
  | array item stride capacity =>
    have hroom : capacity * stride ≤ b.length := h
    obtain ⟨hshort, hlong⟩ := hregion hroom
    rw [write, write, hshort, hlong]
    dsimp only
    rw [onFront_append _ hroom]
  | packed p capacity =>
    have hroom : packedLength p capacity ≤ b.length := h
    obtain ⟨hshort, hlong⟩ := hregion hroom
    rw [write, write, hshort, hlong]
    dsimp only
    rw [onFront_append _ hroom]
  | object fields =>
    have hfields : fixedRegion fields ≤ b.length := h
    rw [write, write, if_neg (by omega), if_neg (by omega)]
    dsimp only
    rw [onFront_append _ hfields]
  | _ => exact absurd True.intro htable

theorem fixedLength?_le_freshLength (layout : Layout) (v : Value) :
    layout.fixedLength?.getD 0 ≤ freshLength layout v := by
  unfold freshLength
  cases layout.fixedLength? with
  | none => exact Nat.zero_le _
  | some n => exact le_refl _

/-- **More room.**  Where there is room for a value, more room changes nothing. -/
theorem encodeOver_append_of_le (hwf : layout.WellFormed) (h : freshLength layout v ≤ b.length) :
    encodeOver layout v (b ++ c)
      = ⟨(encodeOver layout v b).bytes ++ c, (encodeOver layout v b).length⟩ := by
  by_cases htable : layout.IsTable
  · rw [freshLength_of_isTable htable] at h
    exact encodeOver_append hwf htable h c
  · have hseed := seed_append (c := c) hwf htable
      (le_trans (fixedLength?_le_freshLength layout v) h)
    rw [encodeOver, encodeOver, amend, amend, hseed, write_append htable]
    rw [hwf.keepsLength.2]
    exact h

/-- What a value takes or needs reaches as far as its size, or to the end. -/
theorem min_freshLength_le (hwf : layout.WellFormed) (v : Value) (b : Bytes) :
    min (freshLength layout v) b.length
      ≤ max (encodedLength layout v) (encodeOver layout v b).length := by
  have hseed : (seed layout b).length = b.length := hwf.keepsLength.2 b
  -- a text or blob with a cap takes the cap, other values need their size
  have hcontent : ∀ cap, min (Option.getD cap (capped cap v.bytes.length)) b.length
      ≤ max (capped cap v.bytes.length) (writeContent cap v.bytes (seed layout b)).length := by
    intro cap
    unfold writeContent
    dsimp only
    rw [hseed]
    cases cap with
    | none => exact le_max_of_le_left (Nat.min_le_left _ _)
    | some m => exact le_max_right _ _
  cases layout with
  | text cap =>
    rw [encodeOver, amend, write, encodedLength]
    unfold freshLength encodedLength
    exact hcontent cap
  | blob cap =>
    rw [encodeOver, amend, write, encodedLength]
    unfold freshLength encodedLength
    exact hcontent cap
  | _ => exact le_max_of_le_left (Nat.min_le_left _ _)

end Layout

namespace Workspace

open Layout

variable {n : Nat} {layout : Layout} {v : Value}

/-! ## One use -/

/-- Where there is room for a value, it has the bytes that it has on its own. -/
theorem value_encodeOver_zeros (hwf : layout.WellFormed) (h : freshLength layout v ≤ n) :
    (encodeOver layout v (zeros n)).value = toBytes layout v := by
  obtain ⟨hbytes, hle⟩ := hwf.keepsLength.encodeOver v (zeros (freshLength layout v))
  -- the workspace is what the value needs, with zeros behind it
  have hroom : zeros n = zeros (freshLength layout v) ++ zeros (n - freshLength layout v) := by
    rw [← zeros_add, Nat.add_sub_cancel' h]
  rw [hroom, encodeOver_append_of_le hwf (le_of_eq (length_zeros _).symm), toBytes]
  unfold Written.value
  dsimp only
  rw [List.take_append_of_le_length (by omega)]

/-- No byte is touched behind the size of a value. -/
theorem drop_encodeOver_zeros (hwf : layout.WellFormed) (v : Value) (n : Nat) :
    (encodeOver layout v (zeros n)).bytes.drop (min (freshLength layout v) n)
      = zeros (n - freshLength layout v) := by
  obtain ⟨hbytes, -⟩ := hwf.keepsLength.encodeOver v (zeros n)
  rw [length_zeros] at hbytes
  rcases le_or_gt (freshLength layout v) n with hfits | hlong
  · obtain ⟨hfresh, -⟩ := hwf.keepsLength.encodeOver v (zeros (freshLength layout v))
    rw [length_zeros] at hfresh
    have hroom : zeros n = zeros (freshLength layout v) ++ zeros (n - freshLength layout v) := by
      rw [← zeros_add, Nat.add_sub_cancel' hfits]
    rw [Nat.min_eq_left hfits, hroom, encodeOver_append_of_le hwf (le_of_eq (length_zeros _).symm)]
    exact List.drop_left' hfresh
  · rw [Nat.min_eq_right (le_of_lt hlong), List.drop_of_length_le (le_of_eq hbytes),
      Nat.sub_eq_zero_of_le (le_of_lt hlong)]
    rfl

/-- **One use.**  A workspace of zeros is one of zeros after it has encoded a value, whether the
value fitted or not. -/
theorem encode_ofCapacity (hwf : layout.WellFormed) (v : Value) (n : Nat) :
    (ofCapacity n).encode layout v = ((encodeOver layout v (zeros n)).value, ofCapacity n) := by
  have hcleared : onFront (max (encodedLength layout v) (encodeOver layout v (zeros n)).length)
      (fun used => zeros used.length) (encodeOver layout v (zeros n)).bytes = zeros n := by
    obtain ⟨hbytes, -⟩ := hwf.keepsLength.encodeOver v (zeros n)
    have hdrop := drop_encodeOver_zeros hwf v n
    have htouched := min_freshLength_le hwf v (zeros n)
    rw [length_zeros] at hbytes htouched
    generalize max (encodedLength layout v) (encodeOver layout v (zeros n)).length = touched
      at htouched
    -- what is not cleared lies behind the size of the value
    obtain ⟨more, rfl⟩ := Nat.exists_eq_add_of_le htouched
    rw [onFront, ← List.drop_drop, hdrop, drop_zeros, ← zeros_add, List.length_take, hbytes]
    congr 1
    omega
  unfold encode ofCapacity
  dsimp only
  rw [hcleared]

/-! ## Sequences of uses -/

/-- Encodes values one after the other: what each use gives, with the workspace that it leaves. -/
def encodeAll : Workspace → List (Layout × Value) → List (Bytes × Workspace)
  | _, [] => []
  | w, (layout, v) :: rest => w.encode layout v :: encodeAll (w.encode layout v).2 rest

/-- What is asked of a use of a workspace of size `n`, whatever it was used for before. -/
structure IsClean (n : Nat) (layout : Layout) (v : Value) (use : Bytes × Workspace) : Prop where
  /-- All zeros are left. -/
  cleared : use.2.bytes = BinarySchema.zeros n
  /-- The bytes are those that a new workspace gives. -/
  independent : use.1 = ((ofCapacity n).encode layout v).1
  /-- Where there is room for the value, they are those that it has on its own. -/
  complete : freshLength layout v ≤ n → use.1 = toBytes layout v

/-- **Reuse.**  Whatever a workspace has been used for, each use leaves all zeros and gives the bytes
that a new workspace gives, which are those of the value on its own where there is room for it. -/
theorem encodeAll_clean (n : Nat) (uses : List (Layout × Value))
    (huses : ∀ use ∈ uses, use.1.IsCompiled) :
    List.Forall₂ (fun use result => IsClean n use.1 use.2 result) uses
      ((ofCapacity n).encodeAll uses) := by
  induction uses with
  | nil => exact List.Forall₂.nil
  | cons use rest ih =>
    obtain ⟨layout, v⟩ := use
    have hwf : layout.WellFormed := (huses _ List.mem_cons_self).wellFormed
    have huse := encode_ofCapacity hwf v n
    unfold encodeAll
    refine List.Forall₂.cons ⟨?_, rfl, ?_⟩ ?_
    · rw [huse]
      rfl
    · intro hroom
      rw [huse]
      exact value_encodeOver_zeros hwf hroom
    · -- the next use begins with a workspace of zeros again
      rw [huse]
      exact ih fun use huse => huses use (List.mem_cons_of_mem _ huse)

/-- Sixteen bytes are too few for two texts, whose second use is a number cut off in a map. -/
theorem encodeAll_clean_twoTexts :
    let texts : Layout := .vector (.text none) none
    let number : Layout := .map [⟨"n", .primitive .int32, .optional 0, none, some 2⟩]
    ∃ first second, (ofCapacity 16).encodeAll
        [(texts, .list [.text "a", .text "bc"]), (number, .record [("n", .int 7)])]
        = [first, second]
      ∧ first.1 = [2, 0, 0, 0, 16, 0, 0, 0, 16, 0, 0, 0, 16, 0, 0, 0]
      ∧ first.2.bytes = zeros 16 ∧ second.2.bytes = zeros 16
      ∧ second.1 = toBytes number (.record [("n", .int 7)]) := by
  intro texts number
  have htexts : texts.IsCompiled := .of_eval ⟨0⟩ (.object
    [("type", .text "array"), ("btype", .text "vector"),
      ("items", .object [("type", .text "string")])]) (by cbv)
  have hnumber : number.IsCompiled := .of_eval ⟨0⟩ (.object
    [("type", .text "object"), ("btype", .text "map"), ("properties", .object [("n", .object
      [("type", .text "integer"), ("maxLength", .number (.natural 2))])])]) (by cbv)
  have hclean := encodeAll_clean 16
    [(texts, .list [.text "a", .text "bc"]), (number, .record [("n", .int 7)])] (by
      intro use huse
      simp only [List.mem_cons, List.not_mem_nil, or_false] at huse
      rcases huse with rfl | rfl
      · exact htexts
      · exact hnumber)
  obtain ⟨first, rest, hfirst, hrest, huses⟩ := List.forall₂_cons_left_iff.mp hclean
  obtain ⟨second, rest, hsecond, hnone, rfl⟩ := List.forall₂_cons_left_iff.mp hrest
  obtain rfl := List.forall₂_nil_left_iff.mp hnone
  refine ⟨first, second, huses, ?_, hfirst.cleared, hsecond.cleared, hsecond.complete ?_⟩
  · rw [hfirst.independent]
    decide +kernel
  · decide

end Workspace

end BinarySchema
