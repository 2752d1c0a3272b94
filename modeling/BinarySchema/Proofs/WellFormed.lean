/-
# Well-formed layouts

A layout is well-formed when the sizes that it names are those of its parts, and when the fields of
each of its records are arranged one behind the other: the fixed places from the first byte on, the
optional fields by number.  `Arranged` says the latter of one list of fields.  From it follows that
the fixed places are disjoint and lie in the fixed region (`Arranged.disjoint`,
`stop_le_fixedRegion`), and that the optional fields are numbered in order
(`Arranged.place_of_optionals`).
-/
import Mathlib
import BinarySchema.Layout.Size

namespace BinarySchema

namespace Layout

/-- The fields lie one behind the other: the fixed places from `start` on, each as long as its
layout says, and the optional fields by number from `ordinal` on. -/
def Arranged (start ordinal : Nat) : List (Field Layout) → Prop
  | [] => True
  | f :: rest =>
    match f.place with
    | .fixed span =>
      span.start = start ∧ f.layout.fixedLength? = some span.length
        ∧ Arranged span.stop ordinal rest
    | .optional k => k = ordinal ∧ Arranged start (ordinal + 1) rest

/-- The sizes that a layout names are those of its parts, and its fields are arranged under names
of their own. -/
inductive WellFormed : Layout → Prop
  | primitive (p : Primitive) : WellFormed (.primitive p)
  | text (cap : Option Nat) : WellFormed (.text cap)
  | blob (cap : Option Nat) : WellFormed (.blob cap)
  | array {item : Layout} {stride : Nat} (capacity : Nat) (hitem : WellFormed item)
      (hstride : item.fixedLength? = some stride) : WellFormed (.array item stride capacity)
  | packed (p : Primitive) (capacity : Nat) : WellFormed (.packed p capacity)
  | vector {item : Layout} (limit : Option Nat) (hitem : WellFormed item) :
      WellFormed (.vector item limit)
  | dict {key value : Layout} {keyLength : Nat} (hkey : WellFormed key)
      (hlength : key.fixedLength? = some keyLength) (hvalue : WellFormed value) :
      WellFormed (.dict key keyLength value)
  | object {fields : List (Field Layout)} (hparts : ∀ f ∈ fields, WellFormed f.layout)
      (harranged : Arranged 0 0 fields) (hfixed : ∀ f ∈ fields, f.ordinal? = none)
      (hnames : (fields.map Field.name).Nodup) : WellFormed (.object fields)
  | map {fields : List (Field Layout)} (hparts : ∀ f ∈ fields, WellFormed f.layout)
      (harranged : Arranged 0 0 fields) (hnames : (fields.map Field.name).Nodup) :
      WellFormed (.map fields)

/-! ## Places -/

variable {f : Field Layout} {fields rest xs ys : List (Field Layout)} {start ordinal : Nat}

theorem exists_optional_of_ordinal? (h : f.ordinal? ≠ none) : ∃ k, f.place = .optional k := by
  cases hplace : f.place with
  | fixed span =>
    rw [Field.ordinal?, hplace] at h
    exact absurd rfl h
  | optional k => exact ⟨k, rfl⟩

theorem Arranged.cons_fixed {span : Span} (hf : f.place = .fixed span) :
    Arranged start ordinal (f :: rest) ↔ span.start = start
      ∧ f.layout.fixedLength? = some span.length ∧ Arranged span.stop ordinal rest := by
  rw [Arranged, hf]

theorem Arranged.cons_optional {k : Nat} (hf : f.place = .optional k) :
    Arranged start ordinal (f :: rest) ↔ k = ordinal ∧ Arranged start (ordinal + 1) rest := by
  rw [Arranged, hf]

theorem optionalCount_cons_fixed {span : Span} (hf : f.place = .fixed span) :
    optionalCount (f :: rest) = optionalCount rest := by
  rw [optionalCount, List.filterMap_cons_none (by rw [Field.ordinal?, hf]), optionalCount]

theorem optionalCount_cons_optional {k : Nat} (hf : f.place = .optional k) :
    optionalCount (f :: rest) = optionalCount rest + 1 := by
  rw [optionalCount, List.filterMap_cons_some (by rw [Field.ordinal?, hf]), List.length_cons,
    optionalCount]

/-- Fields at fixed places, and optional ones behind them. -/
theorem Arranged.append (hx : Arranged start ordinal xs) (hfixed : ∀ f ∈ xs, f.ordinal? = none)
    (hy : ∀ start, Arranged start ordinal ys) : Arranged start ordinal (xs ++ ys) := by
  induction xs generalizing start with
  | nil => exact hy start
  | cons f rest ih =>
    have hrest := fun g hg => hfixed g (List.mem_cons_of_mem f hg)
    cases hplace : f.place with
    | fixed span =>
      rw [Arranged.cons_fixed hplace] at hx
      rw [List.cons_append, Arranged.cons_fixed hplace]
      exact ⟨hx.1, hx.2.1, ih hx.2.2 hrest⟩
    | optional k =>
      have hnone := hfixed f List.mem_cons_self
      rw [Field.ordinal?, hplace] at hnone
      exact absurd hnone (Option.some_ne_none k)

/-! ## The fixed region -/

/-- A fixed place is as long as its layout says. -/
theorem Arranged.length_eq (h : Arranged start ordinal fields) (hf : f ∈ fields) {span : Span}
    (hplace : f.place = .fixed span) : f.layout.fixedLength? = some span.length := by
  induction fields generalizing start ordinal with
  | nil => exact absurd hf List.not_mem_nil
  | cons g rest ih =>
    cases hg : g.place with
    | fixed span' =>
      rw [Arranged.cons_fixed hg] at h
      rcases List.mem_cons.mp hf with rfl | hf
      · rw [hplace, Place.fixed.injEq] at hg
        rw [hg, h.2.1]
      · exact ih h.2.2 hf
    | optional k =>
      rw [Arranged.cons_optional hg] at h
      rcases List.mem_cons.mp hf with rfl | hf
      · exact absurd (hplace.symm.trans hg) (by simp)
      · exact ih h.2 hf

/-- The greatest end of fixed places is at least the value that the search begins with. -/
theorem le_foldl_max_stop (n : Nat) (spans : List Span) :
    n ≤ spans.foldl (fun n span => max n span.stop) n := by
  induction spans generalizing n with
  | nil => exact le_refl n
  | cons span rest ih => exact le_trans (le_max_left _ _) (ih _)

/-- The end of a place is at most the greatest end. -/
theorem stop_le_foldl_max_stop (n : Nat) {spans : List Span} {span : Span} (h : span ∈ spans) :
    span.stop ≤ spans.foldl (fun n span => max n span.stop) n := by
  induction spans generalizing n with
  | nil => exact absurd h List.not_mem_nil
  | cons span' rest ih =>
    rcases List.mem_cons.mp h with rfl | h
    · exact le_trans (le_max_right _ _) (le_foldl_max_stop _ rest)
    · exact ih _ h

theorem mem_fixedSpans (hf : f ∈ fields) {span : Span} (hplace : f.place = .fixed span) :
    span ∈ fixedSpans fields := by
  rw [fixedSpans, List.mem_filterMap]
  exact ⟨f, hf, by rw [Field.span?, hplace]⟩

/-- Fixed places end in the fixed region. -/
theorem stop_le_fixedRegion (hf : f ∈ fields) {span : Span} (hplace : f.place = .fixed span) :
    span.stop ≤ fixedRegion fields :=
  stop_le_foldl_max_stop 0 (mem_fixedSpans hf hplace)

/-- The optional fields of a map begin behind the fixed region. -/
theorem fixedRegion_le_dataStart (fields : List (Field Layout)) :
    fixedRegion fields ≤ dataStart fields := by
  unfold dataStart usedLengthOffset endOffset
  omega

/-- Fixed places begin where the arrangement begins, or later. -/
theorem Arranged.start_le (h : Arranged start ordinal fields) (hf : f ∈ fields) {span : Span}
    (hplace : f.place = .fixed span) : start ≤ span.start := by
  induction fields generalizing start ordinal with
  | nil => exact absurd hf List.not_mem_nil
  | cons g rest ih =>
    cases hg : g.place with
    | fixed span' =>
      rw [Arranged.cons_fixed hg] at h
      rcases List.mem_cons.mp hf with rfl | hf
      · rw [hplace, Place.fixed.injEq] at hg
        rw [hg, h.1]
      · have hrest := ih h.2.2 hf
        unfold Span.stop at hrest
        omega
    | optional k =>
      rw [Arranged.cons_optional hg] at h
      rcases List.mem_cons.mp hf with rfl | hf
      · exact absurd (hplace.symm.trans hg) (by simp)
      · exact ih h.2 hf

/-- Of two fields at fixed places, the earlier one ends before the later one begins. -/
theorem Arranged.disjoint (h : Arranged start ordinal fields) {i j : Nat} {g : Field Layout}
    {s t : Span} (hi : fields[i]? = some f) (hj : fields[j]? = some g) (hf : f.place = .fixed s)
    (hg : g.place = .fixed t) (hij : i < j) : s.stop ≤ t.start := by
  induction fields generalizing start ordinal i j with
  | nil => exact absurd hi (by simp)
  | cons head rest ih =>
    obtain ⟨j, rfl⟩ := Nat.exists_eq_succ_of_ne_zero (Nat.ne_of_gt (Nat.zero_lt_of_lt hij))
    rw [List.getElem?_cons_succ] at hj
    have hrest : ∃ start ordinal, Arranged start ordinal rest
        ∧ (∀ span, head.place = .fixed span → start = span.stop) := by
      cases hplace : head.place with
      | fixed span =>
        rw [Arranged.cons_fixed hplace] at h
        refine ⟨span.stop, ordinal, h.2.2, ?_⟩
        intro span' heq
        rw [Place.fixed.injEq] at heq
        rw [heq]
      | optional k =>
        rw [Arranged.cons_optional hplace] at h
        exact ⟨start, ordinal + 1, h.2, fun span heq => absurd heq (by simp)⟩
    obtain ⟨start', ordinal', hrest, hstart⟩ := hrest
    cases i with
    | zero =>
      rw [List.getElem?_cons_zero, Option.some.injEq] at hi
      rw [hi] at hstart
      rw [← hstart s hf]
      exact hrest.start_le (List.mem_of_getElem? hj) hg
    | succ i =>
      rw [List.getElem?_cons_succ] at hi
      exact ih hrest hi hj (by omega)

/-! ## Optional fields -/

/-- The optional fields of a record, in order. -/
def optionals (fields : List (Field Layout)) : List (Field Layout) :=
  fields.filter fun f => f.ordinal?.isSome

theorem optionals_cons_fixed {span : Span} (hf : f.place = .fixed span) :
    optionals (f :: rest) = optionals rest := by
  rw [optionals, List.filter_cons_of_neg (by rw [Field.ordinal?, hf]; simp), optionals]

theorem optionals_cons_optional {k : Nat} (hf : f.place = .optional k) :
    optionals (f :: rest) = f :: optionals rest := by
  rw [optionals, List.filter_cons_of_pos (by rw [Field.ordinal?, hf]; rfl), optionals]

theorem length_optionals (fields : List (Field Layout)) :
    (optionals fields).length = optionalCount fields := by
  induction fields with
  | nil => rfl
  | cons f rest ih =>
    cases hf : f.place with
    | fixed span => rw [optionals_cons_fixed hf, optionalCount_cons_fixed hf, ih]
    | optional k =>
      rw [optionals_cons_optional hf, optionalCount_cons_optional hf, List.length_cons, ih]

theorem mem_of_mem_optionals (hf : f ∈ optionals fields) : f ∈ fields :=
  List.mem_of_mem_filter hf

theorem ordinal?_ne_none_of_mem_optionals (hf : f ∈ optionals fields) : f.ordinal? ≠ none := by
  have hsome := List.of_mem_filter hf
  exact Option.isSome_iff_ne_none.mp hsome

/-- The optional fields are numbered in order. -/
theorem Arranged.getElem?_optionals (h : Arranged start ordinal fields) (hf : f ∈ fields) {k : Nat}
    (hplace : f.place = .optional k) :
    ordinal ≤ k ∧ (optionals fields)[k - ordinal]? = some f := by
  induction fields generalizing start ordinal with
  | nil => exact absurd hf List.not_mem_nil
  | cons g rest ih =>
    cases hg : g.place with
    | fixed span =>
      rw [Arranged.cons_fixed hg] at h
      rw [optionals_cons_fixed hg]
      rcases List.mem_cons.mp hf with rfl | hf
      · exact absurd (hplace.symm.trans hg) (by simp)
      · exact ih h.2.2 hf
    | optional k' =>
      rw [Arranged.cons_optional hg] at h
      rw [optionals_cons_optional hg]
      rcases List.mem_cons.mp hf with rfl | hf
      · rw [hplace, Place.optional.injEq] at hg
        rw [hg, h.1, Nat.sub_self, List.getElem?_cons_zero]
        exact ⟨le_refl _, rfl⟩
      · obtain ⟨hle, hget⟩ := ih h.2 hf
        refine ⟨by omega, ?_⟩
        rw [show k - ordinal = (k - (ordinal + 1)) + 1 by omega, List.getElem?_cons_succ, hget]

/-- Where no field precedes, the number of an optional field is below the number of them. -/
theorem Arranged.ordinal_lt (h : Arranged 0 0 fields) (hf : f ∈ fields) {k : Nat}
    (hplace : f.place = .optional k) : k < optionalCount fields := by
  obtain ⟨-, hk⟩ := h.getElem?_optionals hf hplace
  obtain ⟨hlt, -⟩ := List.getElem?_eq_some_iff.mp hk
  rw [length_optionals] at hlt
  exact hlt

theorem Arranged.getElem_optionals (h : Arranged 0 0 fields) (hf : f ∈ fields) {k : Nat}
    (hplace : f.place = .optional k) (hk : k < (optionals fields).length) :
    (optionals fields)[k] = f := by
  obtain ⟨-, hget⟩ := h.getElem?_optionals hf hplace
  obtain ⟨_, heq⟩ := List.getElem?_eq_some_iff.mp hget
  exact heq

/-- Optional fields with one number are one field. -/
theorem Arranged.eq_of_place_eq (h : Arranged 0 0 fields) {g : Field Layout} (hf : f ∈ fields)
    (hg : g ∈ fields) {k : Nat} (hfPlace : f.place = .optional k)
    (hgPlace : g.place = .optional k) : g = f := by
  obtain ⟨-, hfAt⟩ := h.getElem?_optionals hf hfPlace
  obtain ⟨-, hgAt⟩ := h.getElem?_optionals hg hgPlace
  exact Option.some.inj (hgAt.symm.trans hfAt)

/-- The number of an optional field is its position among the optional fields. -/
theorem Arranged.place_of_optionals (h : Arranged start ordinal fields) {k : Nat}
    (hk : (optionals fields)[k]? = some f) : f.place = .optional (ordinal + k) := by
  induction fields generalizing start ordinal k with
  | nil => exact absurd hk (by simp [optionals])
  | cons g rest ih =>
    cases hg : g.place with
    | fixed span =>
      rw [Arranged.cons_fixed hg] at h
      rw [optionals_cons_fixed hg] at hk
      exact ih h.2.2 hk
    | optional k' =>
      rw [Arranged.cons_optional hg] at h
      rw [optionals_cons_optional hg] at hk
      cases k with
      | zero =>
        rw [List.getElem?_cons_zero, Option.some.injEq] at hk
        rw [← hk, hg, h.1, Nat.add_zero]
      | succ k =>
        rw [List.getElem?_cons_succ] at hk
        rw [ih h.2 hk, show ordinal + 1 + k = ordinal + (k + 1) by omega]

/-- The optional fields are numbered from zero on. -/
theorem Arranged.ordinals (h : Arranged 0 0 fields) :
    (optionals fields).map Field.ordinal? = (List.range (optionalCount fields)).map some := by
  apply List.ext_getElem
  · rw [List.length_map, List.length_map, List.length_range, length_optionals]
  · intro i hi hi'
    rw [List.length_map] at hi
    have hplace := h.place_of_optionals (List.getElem?_eq_getElem hi)
    rw [List.getElem_map, List.getElem_map, List.getElem_range, Field.ordinal?, hplace, Nat.zero_add]

end Layout

end BinarySchema
