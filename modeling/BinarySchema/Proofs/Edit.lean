/-
# Edits

An edit writes to the end of a path through a window: it overwrites the part there, or a part of
that (`Window.edit`).  Whatever edits a value has been through, one more of them behaves like the
setter of a lens (`Window.edit_overwrites`): it leaves everything as it is where it fails, and
otherwise the slot reads as what was written, and nothing else is changed at any level around it.

An edit is a write at the end of a longer path (`edit?_eq_writeAt?`), and what such a write does is
shown by induction on the path, one level of which is `Sound.rewritable`.
-/
import BinarySchema.Proofs.Overwrite
import BinarySchema.Proofs.Parts

namespace BinarySchema

/-! ## Sequences of edits -/

/-- The cursor at the end of a path. -/
def Cursor.follow? (c : Cursor) : List Hop → Option Cursor
  | [] => some c
  | h :: path => (c.enter? h).bind (·.follow? path)

/-- What is done at the end of a path. -/
inductive Change where
  /-- The value there is overwritten. -/
  | write (v : Value)
  /-- A part of the value there is overwritten. -/
  | set (h : Hop) (v : Value)

/-- A change at the end of a path. -/
structure Edit where
  /-- The path. -/
  path : List Hop
  /-- What is done at its end. -/
  change : Change

namespace Window

/-- Does what is to be done, if it can be. -/
def change? (w : Window) : Change → Option Window
  | .write v => w.write? v
  | .set h v => w.set? h v

/-- The window after an edit, if that succeeds. -/
def edit? (w : Window) (e : Edit) : Option Window := do
  let c ← (Cursor.ofWindow w).follow? e.path
  let changed ← c.window.change? e.change
  return { w with bytes := { c with window := changed }.bytes }

/-- Whether an edit succeeds, and the window after it. -/
def edit (w : Window) (e : Edit) : Bool × Window :=
  match w.edit? e with
  | some w' => (true, w')
  | none => (false, w)

/-- The window after several edits, some of which may fail. -/
def editAll (w : Window) (edits : List Edit) : Window := edits.foldl (fun w e => (w.edit e).2) w

/-- The number of the part that a hop leads to. -/
def index? (w : Window) : Hop → Option Nat
  | .field name => w.fieldIndex? name
  | .fieldAt i => w.layout.fields?.map fun _ => i
  | .item i => if w.layout.fields?.isSome then none else some i
  | .itemFromEnd i => if w.layout.fields?.isSome then none else w.itemIndex? i
  | .key k => w.layout.entryIndex? w.bytes k

/-! ## What an edit leaves as it is -/

/-- From outside, two windows differ at most in the part that a hop leads to. -/
structure SameAround (w w' : Window) (h : Hop) : Prop where
  /-- The layout is the same. -/
  layout : w'.layout = w.layout
  /-- The number of bytes is the same. -/
  length : w'.bytes.length = w.bytes.length
  /-- The number of items or entries is the same. -/
  size : w'.size = w.size
  /-- The used length is the same. -/
  used : w'.layout.usedLength w'.bytes = w.layout.usedLength w.bytes
  /-- The keys of a dict are the same. -/
  keys : w'.layout.storedKeys w'.bytes = w.layout.storedKeys w.bytes
  /-- Every hop leads to the same place. -/
  target : ∀ g, w'.target? g = w.target? g
  /-- Every hop to another part leads to the same bytes. -/
  other : ∀ g, w.index? g ≠ w.index? h → w'.part? g = w.part? g

/-- Two windows agree at every level above the end of a path. -/
def AgreesAbove (w w' : Window) : List Hop → Prop
  | [] => w'.layout = w.layout ∧ w'.bytes.length = w.bytes.length
  | h :: path => w.SameAround w' h
    ∧ ∃ part part', w.part? h = some part ∧ w'.part? h = some part' ∧ part.AgreesAbove part' path

/-- The second window is the first one with a value written to the slot at the end of a path. -/
structure Overwrites (w w' : Window) (path : List Hop) (v : Value) : Prop where
  /-- Nothing changes at any level above the slot. -/
  above : w.AgreesAbove w' path
  /-- The slot reads as the value, and no byte before or after it changes. -/
  slot : ∃ before after slot slot',
    (Cursor.ofWindow w).follow? path = some ⟨before, slot, after⟩
      ∧ (Cursor.ofWindow w').follow? path = some ⟨before, slot', after⟩
      ∧ w.bytes = before ++ slot.bytes ++ after ∧ w'.bytes = before ++ slot'.bytes ++ after
      ∧ slot'.layout = slot.layout ∧ slot'.bytes.length = slot.bytes.length
      ∧ slot'.value = slot.layout.slotValue v slot.bytes.length

/-- A hop leads to a slot of fixed size: a field of an object, a required field of a map, or an item
of an array. -/
def HasFixedSlot (w : Window) (h : Hop) : Prop :=
  ∃ i, w.index? h = some i ∧
    match w.layout with
    | .object fields => i < fields.length
    | .map fields => ∃ f, fields[i]? = some f ∧ f.ordinal? = none
    | .array _ _ _ | .packed _ _ => i < w.size
    | _ => False

/-! ## Parts by number -/

open Layout

variable {w w' part : Window} {h g : Hop} {path : List Hop} {v : Value} {i : Nat}

/-- Every hop leads to the part of its number. -/
theorem target?_eq (w : Window) (h : Hop) :
    w.target? h = (w.index? h).bind (w.layout.partSpan? w.bytes) := by
  obtain ⟨layout, b⟩ := w
  -- in a record there are no items, and in a list there are no fields
  cases h with
  | field name => cases layout <;> rfl
  | fieldAt i => cases layout <;> rfl
  | item i => cases layout <;> rfl
  | itemFromEnd i =>
    have hnone : ∀ j : Option Nat, j.bind (fun _ => (none : Option (Layout × Span))) = none := by
      intro j
      cases j <;> rfl
    cases layout with
    | object fields => exact hnone _
    | map fields => exact hnone _
    | _ => rfl
  | key k =>
    cases layout with
    | dict key keyLength value =>
      show entrySpan? (.dict key keyLength value) b k = _
      unfold entrySpan?
      apply congrArg (Option.bind (keyIndex? key keyLength b k 0))
      funext j
      show _ = (vectorSpan? b j).map (value, ·)
      cases vectorSpan? b j <;> rfl
    | _ => rfl

/-- A window to a part, by the span of the part. -/
theorem part?_eq_some (hpart : w.part? h = some part) :
    ∃ i span, w.index? h = some i ∧ w.layout.partSpan? w.bytes i = some (part.layout, span)
      ∧ w.target? h = some (part.layout, span) ∧ part.bytes = span.slice w.bytes := by
  rw [part?_eq] at hpart
  obtain ⟨⟨layout, span⟩, htarget, hslice⟩ := Option.bind_eq_some_iff.mp hpart
  obtain ⟨bytes, hbytes, rfl⟩ := Option.map_eq_some_iff.mp hslice
  have hindex := htarget
  rw [target?_eq] at hindex
  obtain ⟨i, hi, hspan⟩ := Option.bind_eq_some_iff.mp hindex
  refine ⟨i, span, hi, hspan, htarget, ?_⟩
  unfold Span.slice? at hbytes
  split_ifs at hbytes
  exact (Option.some.inj hbytes).symm

theorem part?_of_target? {layout : Layout} {span : Span}
    (htarget : w.target? h = some (layout, span)) (hfits : span.Fits w.bytes) :
    w.part? h = some ⟨layout, span.slice w.bytes⟩ := by
  rw [part?_eq, htarget, Option.bind_some, Span.slice?_of_fits hfits, Option.map_some]

/-! ## One level -/

/-- Keys are found by their bytes. -/
theorem firstFrom_congr {p q : Nat → Bool} {start count : Nat}
    (h : ∀ i, start ≤ i → i < start + count → p i = q i) :
    firstFrom p start count = firstFrom q start count := by
  induction count generalizing start with
  | zero => rfl
  | succ count ih =>
    rw [firstFrom, firstFrom, h start (le_refl _) (by omega),
      ih fun i hlow hhigh => h i (by omega) (by omega)]

theorem entryIndex?_congr {layout : Layout} {b c : Bytes}
    (hkeys : layout.storedKeys c = layout.storedKeys b) (k : Value) :
    layout.entryIndex? c k = layout.entryIndex? b k := by
  cases layout with
  | dict key keyLength value =>
    unfold storedKeys at hkeys
    -- as many keys are stored, and each has the same bytes
    have hcount : keyCount keyLength c = keyCount keyLength b := by
      have hlength := congrArg List.length hkeys
      rwa [List.length_map, List.length_map, List.length_range, List.length_range] at hlength
    rw [entryIndex?, entryIndex?, keyIndex?, keyIndex?, hcount]
    apply firstFrom_congr
    intro i _ hi
    have hi' : i < keyCount keyLength b := by omega
    have hkey : _ = _ := congrArg (fun keys : List Bytes => keys[i]?) hkeys
    rw [List.getElem?_map, List.getElem?_map, List.getElem?_range (by omega),
      List.getElem?_range hi'] at hkey
    have hslice : (keySpan keyLength c i).slice c = (keySpan keyLength b i).slice b :=
      Option.some.inj hkey
    rw [hslice]
  | _ => rfl

/-- Two windows that differ in one part lead every hop to the same number. -/
theorem index?_congr {layout : Layout} {b c : Bytes} (hsame : SameBut layout i b c) (g : Hop) :
    index? ⟨layout, c⟩ g = index? ⟨layout, b⟩ g := by
  cases g with
  | itemFromEnd j =>
    have hsize : size ⟨layout, c⟩ = size ⟨layout, b⟩ := hsame.count
    rw [index?, index?, itemIndex?, itemIndex?, hsize]
  | key k => exact entryIndex?_congr hsame.keys k
  | _ => rfl

/-- Rewriting one part changes nothing around it. -/
theorem sameAround_of_sameBut {layout : Layout} {b c : Bytes} (hsame : SameBut layout i b c)
    (hi : index? ⟨layout, b⟩ h = some i) : SameAround ⟨layout, b⟩ ⟨layout, c⟩ h := by
  have htarget : ∀ g, target? ⟨layout, c⟩ g = target? ⟨layout, b⟩ g := by
    intro g
    rw [target?_eq, target?_eq, index?_congr hsame]
    exact congrArg _ (funext hsame.place)
  refine ⟨rfl, hsame.length, hsame.count, hsame.used, hsame.keys, htarget, ?_⟩
  intro g hne
  rw [part?_eq, part?_eq, htarget]
  cases hg : target? ⟨layout, b⟩ g with
  | none => rfl
  | some target =>
    obtain ⟨q, t⟩ := target
    rw [target?_eq] at hg
    obtain ⟨j, hj, ht⟩ := Option.bind_eq_some_iff.mp hg
    -- another number is another part, whose bytes are the same
    have hother := hsame.other j q t (fun heq => hne (by rw [hj, hi, heq])) ht
    rw [Option.bind_some, Option.bind_some, Span.slice?_congr hsame.length hother]

end Window

/-! ## Cursors -/

namespace Cursor

variable {w part : Window} {h : Hop} {path : List Hop} {before after : Bytes}

theorem enter?_eq (c : Cursor) (h : Hop) :
    c.enter? h = (c.window.target? h).bind fun target => (c.window.part? h).map fun part =>
      ⟨c.before ++ c.window.bytes.take target.2.start, part,
        c.window.bytes.drop target.2.stop ++ c.after⟩ := by
  unfold enter?
  cases c.window.target? h with
  | none => rfl
  | some target =>
    cases c.window.part? h <;> rfl

theorem follow?_cons (c : Cursor) (h : Hop) (path : List Hop) :
    c.follow? (h :: path) = (c.enter? h).bind (·.follow? path) := rfl

/-- A path leads through a window as it does where the window is everything. -/
theorem follow?_around (before : Bytes) (w : Window) (after : Bytes) (path : List Hop) :
    (⟨before, w, after⟩ : Cursor).follow? path
      = ((ofWindow w).follow? path).map fun c => ⟨before ++ c.before, c.window, c.after ++ after⟩ := by
  induction path generalizing before w after with
  | nil =>
    -- at the end of the path nothing has been added on either side
    show some _ = some (Cursor.mk (before ++ []) w ([] ++ after))
    rw [List.append_nil, List.nil_append]
  | cons h path ih =>
    rw [follow?_cons, follow?_cons, enter?_eq, enter?_eq, ofWindow]
    cases w.target? h with
    | none => rfl
    | some target =>
      cases w.part? h with
      | none => rfl
      | some part =>
        simp only [Option.bind_some, Option.map_some]
        rw [ih, ih ([] ++ w.bytes.take target.2.start), Option.map_map]
        apply congrArg (fun f => Option.map f ((ofWindow part).follow? path))
        funext c
        simp only [Function.comp_apply, List.nil_append, List.append_nil, List.append_assoc]

/-- The first hop of a path leads to the part that the rest begins with. -/
theorem follow?_part {layout : Layout} {span : Span} (htarget : w.target? h = some (layout, span))
    (hpart : w.part? h = some part) (path : List Hop) :
    (ofWindow w).follow? (h :: path) = ((ofWindow part).follow? path).map fun c =>
      ⟨w.bytes.take span.start ++ c.before, c.window, c.after ++ w.bytes.drop span.stop⟩ := by
  have henter : (ofWindow w).enter? h
      = some ⟨w.bytes.take span.start, part, w.bytes.drop span.stop⟩ := by
    rw [enter?_eq, ofWindow, htarget, hpart, Option.bind_some, Option.map_some, List.nil_append,
      List.append_nil]
  rw [follow?_cons, henter, Option.bind_some, follow?_around]

end Cursor

namespace Window

open Layout

variable {w w' part : Window} {h g : Hop} {path : List Hop} {v : Value} {i : Nat}

/-! ## Whole paths -/

/-- Writes a value to the slot at the end of a path, if it fits there. -/
def writeAt? (w : Window) (v : Value) : List Hop → Option Window
  | [] => w.write? v
  | h :: path => do
    let (_, span) ← w.target? h
    let part ← (← w.part? h).writeAt? v path
    return { w with bytes := span.splice w.bytes part.bytes }

theorem writeAt?_cons (w : Window) (v : Value) (h : Hop) (path : List Hop) :
    w.writeAt? v (h :: path) = (w.target? h).bind fun target => (w.part? h).bind fun part =>
      (part.writeAt? v path).map fun part' =>
        { w with bytes := target.2.splice w.bytes part'.bytes } := by
  rw [writeAt?]
  cases w.target? h with
  | none => rfl
  | some target =>
    cases w.part? h with
    | none => rfl
    | some part =>
      simp only [Option.bind_eq_bind, Option.bind_some, Option.pure_def]
      cases part.writeAt? v path <;> rfl

/-- A window to a sound byte string that is small enough for its offsets. -/
structure IsSound (w : Window) : Prop where
  /-- The layout is well-formed. -/
  wellFormed : w.layout.WellFormed
  /-- The bytes are sound. -/
  sound : Sound w.layout w.bytes
  /-- Every offset fits a header word. -/
  small : w.bytes.length < 2 ^ 32

/-- Each part of a sound window is sound, and may be rewritten. -/
theorem IsSound.part? (hw : w.IsSound) (hpart : w.part? h = some part) :
    part.IsSound ∧ ∃ i span, w.index? h = some i ∧ w.target? h = some (part.layout, span)
      ∧ part.bytes = span.slice w.bytes
      ∧ Rewritable w.layout w.bytes i part.layout span := by
  obtain ⟨i, span, hi, hspan, htarget, hbytes⟩ := part?_eq_some hpart
  have hrewritable := hw.sound.rewritable hw.wellFormed hw.small hspan
  refine ⟨⟨wellFormed_part? hw.wellFormed hpart, ?_, ?_⟩, i, span, hi, htarget, hbytes,
    hrewritable⟩
  · rw [hbytes]
    exact hrewritable.sound
  · have hfits := hrewritable.fits
    have hsmall := hw.small
    rw [hbytes, Span.length_slice_of_fits hfits]
    unfold Span.Fits Span.stop at hfits
    omega

/-- A write to the whole of a sound window. -/
theorem IsSound.write? (hw : w.IsSound) (h : w.write? v = some w') :
    w'.IsSound ∧ w'.layout = w.layout ∧ w'.bytes.length = w.bytes.length
      ∧ w'.value = w.layout.slotValue v w.bytes.length := by
  rw [Window.write?] at h
  split_ifs at h with hfits
  obtain ⟨hwf, hsound, hsmall⟩ := hw
  have hlength : (encodeOver w.layout v (zeros w.bytes.length)).bytes.length = w.bytes.length := by
    rw [(hwf.keepsLength.encodeOver v _).1, length_zeros]
  cases h
  refine ⟨⟨hwf, hsound.overwrite hwf (encodedLength_le_of_fitsSlot hfits), ?_⟩, rfl, hlength,
    hsound.decode_overwrite hwf hfits hsmall⟩
  exact lt_of_eq_of_lt hlength hsmall

theorem SameAround.agrees (h' : w.SameAround w' h) :
    w'.layout = w.layout ∧ w'.bytes.length = w.bytes.length := ⟨h'.layout, h'.length⟩

theorem AgreesAbove.agrees (h : w.AgreesAbove w' path) :
    w'.layout = w.layout ∧ w'.bytes.length = w.bytes.length := by
  cases path with
  | nil => exact h
  | cons hop path => exact h.1.agrees

/-- **One write.**  A write to the end of a path in a sound window overwrites the slot there and
nothing else, and leaves a sound window. -/
theorem IsSound.writeAt? (hw : w.IsSound) (h : w.writeAt? v path = some w') :
    w'.IsSound ∧ w.Overwrites w' path v := by
  induction path generalizing w w' with
  | nil =>
    obtain ⟨hsound, hlayout, hlength, hvalue⟩ := hw.write? h
    refine ⟨hsound, ⟨hlayout, hlength⟩, [], [], w, w', rfl, rfl, ?_, ?_, hlayout, hlength, hvalue⟩
    · rw [List.nil_append, List.append_nil]
    · rw [List.nil_append, List.append_nil]
  | cons hop path ih =>
    rw [writeAt?_cons] at h
    obtain ⟨target, hsome, hbind⟩ := Option.bind_eq_some_iff.mp h
    obtain ⟨part, hpart, hmap⟩ := Option.bind_eq_some_iff.mp hbind
    obtain ⟨part', hwrite, hw'⟩ := Option.map_eq_some_iff.mp hmap
    obtain ⟨hsound, i, span, hi, htarget, hbytes, hrewritable⟩ := hw.part? hpart
    obtain ⟨hsound', habove, before, after, slot, slot', hfollow, hfollow', hsplit, hsplit', hslot⟩
      := ih hsound hwrite
    obtain ⟨hlayout, hlength⟩ := habove.agrees
    obtain rfl : target = (part.layout, span) := Option.some.inj (hsome.symm.trans htarget)
    subst hw'
    have hfits := hrewritable.fits
    have hnew : part'.bytes.length = span.length := by
      rw [hlength, hbytes, Span.length_slice_of_fits hfits]
    -- the write leaves the part sound, so it may take the place of the old bytes
    obtain ⟨hwhole, hsame⟩ := hrewritable.splice part'.bytes hnew (hlayout ▸ hsound'.sound)
    have haround := sameAround_of_sameBut hsame hi
    have hfits' : span.Fits (span.splice w.bytes part'.bytes) := by
      rw [Span.Fits, hsame.length]
      exact hfits
    -- the window after the write has the rewritten part in the same place
    have htarget' : target? ⟨w.layout, span.splice w.bytes part'.bytes⟩ hop
        = some (part.layout, span) := by
      rw [haround.target, htarget]
    have hpart' : Window.part? ⟨w.layout, span.splice w.bytes part'.bytes⟩ hop = some part' := by
      rw [part?_of_target? htarget' hfits', Span.slice_splice hfits hnew, ← hlayout]
    refine ⟨⟨hw.wellFormed, hwhole, lt_of_eq_of_lt hsame.length hw.small⟩,
      ⟨haround, part, part', hpart, hpart', habove⟩, w.bytes.take span.start ++ before,
      after ++ w.bytes.drop span.stop, slot, slot', ?_, ?_, ?_, ?_, hslot⟩
    · rw [Cursor.follow?_part htarget hpart, hfollow, Option.map_some]
    · rw [Cursor.follow?_part htarget' hpart', hfollow', Option.map_some]
      dsimp only
      rw [Span.take_splice hfits, Span.drop_splice hfits hnew]
    · conv_lhs => rw [← Span.take_slice_drop span w.bytes, ← hbytes, hsplit]
      simp only [List.append_assoc]
    · rw [Span.splice, hsplit']
      simp only [List.append_assoc]

/-! ## Edits are writes -/

theorem layout_of_writeAt? (h : w.writeAt? v path = some w') : w'.layout = w.layout := by
  cases path with
  | nil =>
    rw [writeAt?, Window.write?] at h
    split_ifs at h
    cases h
    rfl
  | cons hop path =>
    rw [writeAt?_cons] at h
    obtain ⟨target, -, hbind⟩ := Option.bind_eq_some_iff.mp h
    obtain ⟨part, -, hmap⟩ := Option.bind_eq_some_iff.mp hbind
    obtain ⟨part', -, rfl⟩ := Option.map_eq_some_iff.mp hmap
    rfl

/-- A write to the end of a path is one through the cursor at the end of its first hops. -/
theorem writeAt?_append (w : Window) (v : Value) (path more : List Hop) :
    w.writeAt? v (path ++ more) = ((Cursor.ofWindow w).follow? path).bind fun c =>
      (c.window.writeAt? v more).map fun w' =>
        { w with bytes := c.before ++ w'.bytes ++ c.after } := by
  induction path generalizing w with
  | nil =>
    show w.writeAt? v more = (w.writeAt? v more).map fun w' =>
      { w with bytes := [] ++ w'.bytes ++ [] }
    cases h : w.writeAt? v more with
    | none => rfl
    | some w' => rw [Option.map_some, List.nil_append, List.append_nil, ← layout_of_writeAt? h]
  | cons hop path ih =>
    rw [List.cons_append, writeAt?_cons]
    cases htarget : w.target? hop with
    | none => rw [Cursor.follow?_cons, Cursor.enter?_eq, Cursor.ofWindow, htarget]; rfl
    | some target =>
      cases hpart : w.part? hop with
      | none => rw [Cursor.follow?_cons, Cursor.enter?_eq, Cursor.ofWindow, htarget, hpart]; rfl
      | some part =>
        rw [Cursor.follow?_part htarget hpart, Option.bind_some, Option.bind_some, ih,
          Option.bind_map, Option.map_bind]
        congr 1
        funext c
        rw [Function.comp_apply, Function.comp_apply, Option.map_map]
        congr 1
        funext w'
        simp only [Function.comp_apply, Span.splice, List.append_assoc]

theorem set?_eq_writeAt? (w : Window) (h : Hop) (v : Value) : w.set? h v = w.writeAt? v [h] := rfl

/-- **Edits.**  An edit is a write to the end of a path: its own, or that and the hop to a part. -/
theorem edit?_eq_writeAt? (w : Window) (path : List Hop) (v : Value) :
    w.edit? ⟨path, .write v⟩ = w.writeAt? v path
      ∧ ∀ h, w.edit? ⟨path, .set h v⟩ = w.writeAt? v (path ++ [h]) := by
  constructor
  -- a value that is overwritten is at the end of the path itself
  · have happend := writeAt?_append w v path []
    rw [List.append_nil] at happend
    rw [happend, edit?]
    cases (Cursor.ofWindow w).follow? path with
    | none => rfl
    | some c =>
      show _ = (c.window.write? v).map _
      cases hwrite : c.window.write? v with
      | none => simp [change?, hwrite]
      | some w' => simp [change?, hwrite, Cursor.bytes]
  · intro h
    rw [writeAt?_append w v path [h], edit?]
    cases (Cursor.ofWindow w).follow? path with
    | none => rfl
    | some c =>
      rw [Option.bind_some, ← set?_eq_writeAt?]
      cases hset : c.window.set? h v with
      | none => simp [change?, hset]
      | some w' => simp [change?, hset, Cursor.bytes]

/-! ## Slots of fixed size -/

/-- A slot of the size that all values of a layout share takes each of them. -/
theorem fitsSlot_of_fixedLength {layout : Layout} {n : Nat} (h : layout.fixedLength? = some n)
    (v : Value) : layout.fitsSlot v n = true := by
  cases layout with
  | text cap =>
    cases h
    show decide (encodedLength (.text (some n)) v ≤ n) = true
    rw [encodedLength]
    exact decide_eq_true (Nat.min_le_right _ _)
  | blob cap =>
    cases h
    rw [fitsSlot, encodedLength, Bool.or_eq_true, Bool.and_eq_true]
    have hle : capped (some n) v.bytes.length ≤ n := Nat.min_le_right _ _
    -- a slot of the size of the cap takes a shorter blob, too
    rcases Nat.eq_or_lt_of_le hle with heq | hlt
    · exact Or.inl (beq_iff_eq.mpr heq)
    · exact Or.inr ⟨decide_eq_true hlt, beq_self_eq_true _⟩
  | vector item limit => cases h
  | dict key keyLength value => cases h
  | map fields => cases h
  | _ =>
    cases h
    simp [fitsSlot, encodedLength]

theorem exists_fixed_of_ordinal? {f : Field Layout} (h : f.ordinal? = none) :
    ∃ span, f.place = .fixed span := by
  unfold Field.ordinal? at h
  cases hplace : f.place with
  | fixed span => exact ⟨span, rfl⟩
  | optional k =>
    rw [hplace] at h
    cases h

/-- A part of the size that all values of its layout share takes each of them. -/
theorem set?_of_fixedLength {layout : Layout} {span : Span}
    (htarget : w.target? h = some (layout, span)) (hfits : span.Fits w.bytes)
    (hlength : layout.fixedLength? = some span.length) (v : Value) : (w.set? h v).isSome := by
  have hpart := part?_of_target? htarget hfits
  have hslot : layout.fitsSlot v (span.slice w.bytes).length = true := by
    rw [Span.length_slice_of_fits hfits]
    exact fitsSlot_of_fixedLength hlength v
  rw [set?_eq_writeAt?, writeAt?_cons, htarget, hpart, Option.bind_some, Option.bind_some,
    Option.isSome_map]
  show (Window.write? _ _).isSome = true
  rw [Window.write?, if_pos hslot]
  rfl

/-- A slot of fixed size takes every value. -/
theorem IsSound.set?_isSome (hw : w.IsSound) (hslot : w.HasFixedSlot h) (v : Value) :
    (w.set? h v).isSome := by
  obtain ⟨i, hi, hslot⟩ := hslot
  -- each of these slots has the size that all values of its layout share
  have hexists : ∃ layout span, w.layout.partSpan? w.bytes i = some (layout, span)
      ∧ layout.fixedLength? = some span.length := by
    obtain ⟨layout, b⟩ := w
    have hwf := hw.wellFormed
    dsimp only at hwf hslot ⊢
    cases hwf with
    | @object fields hparts harranged hfixed hnames =>
      have hlt : i < fields.length := hslot
      have hmem := List.getElem_mem hlt
      obtain ⟨span, hplace⟩ := exists_fixed_of_ordinal? (hfixed _ hmem)
      refine ⟨fields[i].layout, span, ?_, harranged.length_eq hmem hplace⟩
      simp [partSpan?, fields?, fieldSpan?, Field.span?, hlt, hplace]
    | map hparts harranged hnames =>
      obtain ⟨f, hf, hnone⟩ := hslot
      obtain ⟨span, hplace⟩ := exists_fixed_of_ordinal? hnone
      refine ⟨f.layout, span, ?_, harranged.length_eq (List.mem_of_getElem? hf) hplace⟩
      rw [partSpan?_map, hf, Option.bind_some, mapSpan?, hplace]
      rfl
    | @array item stride capacity hitem hstride =>
      have hlt : i < slotCount stride capacity b := hslot
      refine ⟨item, ⟨itemOffset stride i, stride⟩, ?_, hstride⟩
      show (slotSpan? stride capacity b i).map _ = _
      rw [slotSpan?, if_pos hlt]
      rfl
    | packed p capacity =>
      have hlt : i < slotCount p.width capacity b := hslot
      refine ⟨.primitive p, ⟨packedOffset p i, p.width⟩, ?_, rfl⟩
      show (packedSpan? p capacity b i).map _ = _
      rw [packedSpan?, if_pos hlt]
      rfl
    | _ => exact hslot.elim
  obtain ⟨layout, span, hspan, hlength⟩ := hexists
  refine set?_of_fixedLength ?_ (hw.sound.rewritable hw.wellFormed hw.small hspan).fits hlength v
  rw [target?_eq, hi, Option.bind_some, hspan]

/-! ## Sequences -/

/-- A path leads from a sound window to sound parts. -/
theorem IsSound.follow? (hw : w.IsSound) {c : Cursor}
    (hc : (Cursor.ofWindow w).follow? path = some c) : c.window.IsSound := by
  induction path generalizing w c with
  | nil =>
    cases hc
    exact hw
  | cons hop path ih =>
    cases hpart : w.part? hop with
    | none =>
      rw [Cursor.follow?_cons, Cursor.enter?_eq, Cursor.ofWindow, hpart] at hc
      simp at hc
    | some part =>
      obtain ⟨hsound, i, span, -, htarget, -⟩ := hw.part? hpart
      rw [Cursor.follow?_part htarget hpart] at hc
      obtain ⟨c', hc', rfl⟩ := Option.map_eq_some_iff.mp hc
      have hrest := ih hsound hc'
      exact hrest

/-- The window after an edit, by whether it succeeds. -/
theorem edit_of_some {e : Edit} (h : w.edit? e = some w') : w.edit e = (true, w') := by
  rw [edit, h]

theorem edit_of_none {e : Edit} (h : w.edit? e = none) : w.edit e = (false, w) := by
  rw [edit, h]

/-- **Steps.**  An edit leaves a sound window, whether it succeeds or not. -/
theorem IsSound.edit (hw : w.IsSound) (e : Edit) : (w.edit e).2.IsSound := by
  cases h : w.edit? e with
  | none =>
    rw [edit_of_none h]
    exact hw
  | some w' =>
    rw [edit_of_some h]
    obtain ⟨path, change⟩ := e
    cases change with
    | write v =>
      rw [(edit?_eq_writeAt? w path v).1] at h
      exact (hw.writeAt? h).1
    | set hop v =>
      rw [(edit?_eq_writeAt? w path v).2] at h
      exact (hw.writeAt? h).1

/-- **Runs.**  So does any sequence of edits. -/
theorem IsSound.editAll (hw : w.IsSound) (edits : List Edit) : (w.editAll edits).IsSound := by
  induction edits generalizing w with
  | nil => exact hw
  | cons e edits ih => exact ih (hw.edit e)

theorem isSound_toBytes {layout : Layout} (hwf : layout.WellFormed) {d : Value}
    (hsmall : freshLength layout d < 2 ^ 32) : IsSound ⟨layout, toBytes layout d⟩ :=
  ⟨hwf, hwf.sound_toBytes d, lt_of_le_of_lt (hwf.length_toBytes_le d) hsmall⟩

/-- **Lens.**  Take the bytes of any value after any edits, and one more edit of a part.  Where it
fails, nothing changes.  Where it succeeds, the slot reads as the new value, no byte outside the
slot changes, and at every level around it the number of parts, the used length, the keys and all
other parts are as before.  It succeeds for every slot of fixed size. -/
theorem edit_overwrites {layout : Layout} (hlayout : layout.IsCompiled) (d : Value)
    (hsmall : freshLength layout d < 2 ^ 32) (edits : List Edit) (path : List Hop) (h : Hop)
    (x : Value) :
    let w := editAll ⟨layout, toBytes layout d⟩ edits
    ((w.edit ⟨path, .set h x⟩).1 = false → (w.edit ⟨path, .set h x⟩).2 = w)
      ∧ ((w.edit ⟨path, .set h x⟩).1 = true →
        w.Overwrites (w.edit ⟨path, .set h x⟩).2 (path ++ [h]) x)
      ∧ ∀ c, (Cursor.ofWindow w).follow? path = some c → c.window.HasFixedSlot h →
        (w.edit ⟨path, .set h x⟩).1 = true := by
  intro w
  have hw : w.IsSound := (isSound_toBytes hlayout.wellFormed hsmall).editAll edits
  cases hedit : w.edit? ⟨path, .set h x⟩ with
  | none =>
    rw [edit_of_none hedit]
    refine ⟨fun _ => rfl, fun hfalse => absurd hfalse Bool.false_ne_true, ?_⟩
    -- a slot of fixed size takes every value, so the edit would not have failed
    intro c hc hslot
    obtain ⟨changed, hchanged⟩ := Option.isSome_iff_exists.mp
      ((hw.follow? hc).set?_isSome hslot x)
    rw [edit?, hc] at hedit
    simp [change?, hchanged] at hedit
  | some w' =>
    rw [edit_of_some hedit]
    rw [(edit?_eq_writeAt? w path x).2] at hedit
    exact ⟨fun hfalse => absurd hfalse.symm Bool.false_ne_true, fun _ => (hw.writeAt? hedit).2,
      fun _ _ _ => rfl⟩

/-- Two texts in an optional field, the first of which has been shortened: the second one cannot
grow, but it can shrink. -/
theorem edit_overwrites_texts :
    let layout : Layout := .map [⟨"texts", .vector (.text none) none, .optional 0, none, none⟩]
    let d : Value := .record [("texts", .list [.text "alpha", .text "beta"])]
    let w := editAll ⟨layout, toBytes layout d⟩ [⟨[.field "texts"], .set (.item 0) (.text "al")⟩]
    (w.edit ⟨[.field "texts"], .set (.item 1) (.text "betamax")⟩).2 = w
      ∧ w.Overwrites (w.edit ⟨[.field "texts"], .set (.item 1) (.text "b")⟩).2
        [.field "texts", .item 1] (.text "b") := by
  intro layout d w
  have hcompiled : layout.IsCompiled := .of_eval ⟨0⟩ (.object
    [("type", .text "object"), ("btype", .text "map"), ("properties", .object [("texts", .object
      [("type", .text "array"), ("btype", .text "vector"),
        ("items", .object [("type", .text "string")])])])]) (by cbv)
  have hlens := edit_overwrites hcompiled d (by decide)
    [⟨[.field "texts"], .set (.item 0) (.text "al")⟩] [.field "texts"] (.item 1)
  refine ⟨(hlens (.text "betamax")).1 ?_, (hlens (.text "b")).2.1 ?_⟩
  · decide +kernel
  · decide +kernel

end Window

end BinarySchema
