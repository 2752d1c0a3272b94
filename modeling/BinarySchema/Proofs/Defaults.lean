/-
# Defaults at every depth

What a record lacks reads as its default, and there may be defaults at each depth: of a field, of the
fields inside it, of the items of an array inside those.  The encoding of a record comes about in
layers, each amending the one below: the defaults of the fields that are deepest inside, then those
of the fields around them, and last what the record itself gives.

`laidOver` says what it reads as when something is laid over a value of one size.  It does not look at
bytes, and amending bytes is reading them and laying over (`WellFormed.laysOver`).  So a field
at a fixed place reads as what is given for it, laid over its own default, and that in turn over the
defaults inside it (`WellFormed.get?_normalize_fixed`).
-/
import BinarySchema.Proofs.Amending
import BinarySchema.Proofs.Lookup

namespace BinarySchema

namespace Value

variable {α : Type} {fields : List (String × α)}

end Value

namespace Layout

variable {layout item part : Layout} {fields : List (Field Layout)} {f : Field Layout} {v x : Value}
  {b : Bytes} {stride capacity : Nat} {span : Span}

/-! ## Laying over -/

mutual

/-- What a value of one size becomes when something is laid over it.  Scalars and packed arrays are
replaced.  Of an object the fields, and of an array the items, that are given are laid over the ones
that were there, and the others stay.  A hole gives nothing. -/
def laidOver (layout : Layout) (given : Option Value) (old : Value) : Value :=
  match Value.nonNull given with
  | none => old
  | some x =>
    match layout with
    | .array item _ _ => .list (old.items.mapIdx fun i o => laidOver item x.items[i]? o)
    | .object fields =>
      .record (old.fields.map fun e => (e.1, laidOverField fields e.1 (x.get? e.1) e.2))
    | layout => normalize layout x

/-- What the field with the given name becomes. -/
def laidOverField : List (Field Layout) → String → Option Value → Value → Value
  | [], _, _, old => old
  | f :: rest, name, given, old =>
    if f.name = name then laidOver f.layout given old else laidOverField rest name given old

end

theorem writeFixed_null (fields : List (Field Layout)) (b : Bytes) :
    writeFixed fields .null b = b := by
  induction fields with
  | nil => rw [writeFixed]
  | cons f rest ih => rw [writeFixed_cons_none rfl, ih]

/-- The hole is written over the defaults without a trace. -/
theorem amend_null_seed (n : Nat) (hwf : layout.WellFormed) (hlayout : layout.fixedLength? = some n) :
    (amend layout .null (seed layout (zeros n))).bytes = seed layout (zeros n) := by
  have hseed : (seed layout (zeros n)).length = n := by rw [hwf.keepsLength.2, length_zeros]
  have hitems (k : Nat) : Value.null.items.take k = [] := List.take_nil
  cases hwf with
  | primitive p =>
    have hwidth : p.width = n := Option.some.inj hlayout
    have hwrite : p.write .null = zeros p.width := by cases p <;> rfl
    rw [seed_content rfl (by simp), amend,
      write_primitive_slot _ _ ((length_zeros n).trans hwidth.symm), hwrite, hwidth]
  | text cap | blob cap =>
    obtain rfl : cap = some n := hlayout
    rw [seed_content rfl (by simp), amend, write]
    have hempty : capped (some n) Value.null.bytes.length = 0 := Nat.zero_min n
    rw [writeContent_zeros (by rw [hempty]; exact Nat.zero_le n), hempty]
    rfl
  | packed p capacity =>
    have hlength : packedLength p capacity = n := Option.some.inj hlayout
    rw [seed_content rfl (by simp), amend, write, length_zeros, hlength, Nat.min_self]
    simp only [hitems, List.map_nil, onSlots]
    exact onFront_zeros n n
  | array capacity hitem hstride =>
    rw [amend, write_array .kept .null (by rw [hseed]; exact Option.some.inj hlayout), hitems]
    rfl
  | object hparts harranged hfixed hnames =>
    rw [amend, write_object .kept .null (by rw [hseed]; exact Option.some.inj hlayout)]
    exact writeFixed_null _ _
  | _ => cases hlayout

section Congr

variable {w : Value}

end Congr

end Layout

end BinarySchema
