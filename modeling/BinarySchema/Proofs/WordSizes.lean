/-
# Sizes on 64-bit words

Sizes are natural numbers here, but a machine computes them on words of 64 bits.  `Catalog.compile64`
is compiling on such a machine: the program stops at the first sum or product of sizes that is no
word, while a shift drops the bits that do not fit.

So the sizes in a layout that it gives are the sizes without a bound, with one exception
(`Catalog.compile64_sizes`): the size of a packed array is computed by a shift, and loses its high bits
without a trace (`Catalog.compile64_wraps`).
-/
import BinarySchema.Proofs.CompileSteps
import BinarySchema.Proofs.Write

namespace BinarySchema

open Compile Logged

/-! ## Words -/

/-- The result of a sum or product, if it is a word.  Else the program stops. -/
def word? (n : Nat) : Option Nat := if n < UInt64.size then some n else none

theorem word?_eq_some {n m : Nat} : word? n = some m ↔ n < UInt64.size ∧ n = m := by
  unfold word?
  split_ifs with h <;> simp [h]

theorem word?_of_lt {n : Nat} (h : n < UInt64.size) : word? n = some n := word?_eq_some.mpr ⟨h, rfl⟩

namespace Layout

variable {layout part : Layout}

/-- The size of all values of a layout, computed on words.  That of an array is a product. -/
def length64? : Layout → Option (Option Nat)
  | .array _ stride capacity => (word? (capacity * stride)).map some
  | layout => some layout.fixedLength?

/-- Where item `i` of an array begins, computed on words. -/
def itemOffset64? (stride i : Nat) : Option Nat := word? (i * stride)

/-- The number of items that an array or packed array holds. -/
def capacity? : Layout → Option Nat
  | .array _ _ capacity | .packed _ capacity => some capacity
  | _ => none

/-- The sizes that a layout is put together from are words, and are those of its parts. -/
def OnWords : Layout → Prop
  | .primitive _ | .vector _ _ => True
  | .text cap | .blob cap => ∀ n, cap = some n → n < UInt64.size
  | .array item stride capacity => item.length64? = some (some stride) ∧ capacity < UInt64.size
  | .packed _ capacity => capacity < UInt64.size
  | .dict key keyLength _ => key.length64? = some (some keyLength)
  | .object fields | .map fields => ∀ f ∈ fields, ∀ span, f.span? = some span →
    f.layout.length64? = some (some span.length) ∧ span.stop < UInt64.size

/-- The layout and all layouts in it have their sizes on words. -/
def AllOnWords (layout : Layout) : Prop := ∀ part, Within part layout → part.OnWords

/-- What occurs in a layout is the layout itself, or occurs in one of its parts. -/
theorem Within.eq_or_part (h : Within part layout) :
    part = layout ∨ ∃ whole ∈ layout.parts, Within part whole := by
  cases h with
  | self => exact Or.inl rfl
  | array h | vector h | key h => exact Or.inr ⟨_, List.mem_cons_self, h⟩
  | value h => exact Or.inr ⟨_, List.mem_cons_of_mem _ List.mem_cons_self, h⟩
  | object hf h | map hf h => exact Or.inr ⟨_, List.mem_map_of_mem hf, h⟩

/-- What all parts of a layout have, it has itself, if it has its sizes on words. -/
def PassedOnWords (G : Layout → Prop) : Prop :=
  ∀ layout : Layout, layout.OnWords → (∀ part ∈ layout.parts, G part) → G layout

theorem PassedOnWords.leaf {G : Layout → Prop} (hG : PassedOnWords G) (hparts : layout.parts = [])
    (hwords : layout.OnWords) : G layout :=
  hG layout hwords fun _ hpart => absurd (hparts ▸ hpart) List.not_mem_nil

theorem passedOnWords_all : PassedOnWords AllOnWords := by
  intro layout h hparts part hpart
  rcases hpart.eq_or_part with rfl | ⟨whole, hwhole, hpart⟩
  · exact h
  · exact hparts whole hwhole part hpart

end Layout

/-! ## Compiling on words -/

/-- A size that is computed is a word. -/
def Compile.Step.Fits : Step → Prop
  | .size n => n < UInt64.size
  | _ => True

instance (e : Step) : Decidable e.Fits := by
  cases e <;> unfold Step.Fits <;> infer_instance

namespace Catalog

/-- The steps that compiling a schema takes: none if the name of the schema is known. -/
def compileSteps (c : Catalog) (s : Schema) : List Step :=
  match s.id.bind c.byId? with
  | some _ => []
  | none => (Logged.compileTree c.byId? s).2

/-- Compiling on 64-bit words.  The program stops at a sum or product that is none. -/
def compile64 (c : Catalog) (s : Schema) : Option (Except CompileError (Layout × Catalog)) :=
  if ∀ e ∈ c.compileSteps s, e.Fits then some (c.compile s) else none

/-- The catalogs that come from one without layouts by compiling on words and encoding. -/
inductive Reachable64 : Catalog → Prop
  | ofSettings (s : Settings) : Reachable64 (.ofSettings s)
  | compile {c c' : Catalog} {s : Schema} {layout : Layout} (hc : Reachable64 c)
      (h : c.compile64 s = some (.ok (layout, c'))) : Reachable64 c'
  | encodeWith {c : Catalog} (layout : Layout) (v : Value) (hc : Reachable64 c) :
      Reachable64 (c.encodeWith layout v).2

end Catalog

namespace Compile

variable {α β : Type} {x : LoggedM α} {P Q : α → Prop}

/-- If the sizes that the compilation computes are words, then what it gives satisfies `P`. -/
def Sized (x : LoggedM α) (P : α → Prop) : Prop :=
  ∀ tags steps, ∃ new, (x tags steps).2 = steps ++ new ∧ ∀ a tags',
    (x tags steps).1 = .ok (a, tags') → (∀ e ∈ new, e.Fits) → P a

theorem Sized.lift {y : CompileM α} (h : ∀ tags a tags', y tags = .ok (a, tags') → P a) :
    Sized (Logged.lift y) P :=
  fun tags steps => ⟨[], (List.append_nil steps).symm, fun a tags' ha _ => h tags a tags' ha⟩

theorem Sized.except {y : Except CompileError α} (h : ∀ a, y = .ok a → P a) :
    Sized (Logged.lift (liftM y)) P := by
  refine Sized.lift fun tags a tags' ha => h a ?_
  cases y with
  | error e => cases ha
  | ok a =>
    cases ha
    rfl

theorem Sized.throw (e : CompileError) : Sized (Logged.lift (MonadExcept.throw e)) P :=
  Sized.lift fun _ _ _ ha => by cases ha

theorem Sized.pure {a : α} (h : P a) : Sized (Pure.pure a) P :=
  Sized.lift (y := Pure.pure a) fun _ _ _ hb => by
    cases hb
    exact h

theorem Sized.note (e : Step) : Sized (Logged.note e) fun _ => e.Fits :=
  fun _ _ => ⟨[e], rfl, fun _ _ _ h => h e List.mem_cons_self⟩

theorem Sized.imp (hx : Sized x P) (h : ∀ a, P a → Q a) : Sized x Q := fun tags steps =>
  (hx tags steps).imp fun _ hrun => hrun.imp_right fun hP a tags' ha hnew => h a (hP a tags' ha hnew)

/-- A compilation that goes on with the result of another.  What that satisfies can be used in the end,
since only then all sizes are known to be words. -/
theorem Sized.bind {f : α → LoggedM β} {Q : β → Prop} (hx : Sized x P)
    (hf : ∀ a, Sized (f a) fun b => P a → Q b) : Sized (x >>= f) Q := by
  intro tags steps
  obtain ⟨new, hsteps, hP⟩ := hx tags steps
  rw [loggedBind_eq]
  rcases hrun : x tags steps with ⟨_ | ⟨a, tags'⟩, steps'⟩
  · rw [hrun] at hsteps
    exact ⟨new, hsteps, fun b tags' hb => by cases hb⟩
  · rw [hrun] at hsteps hP
    obtain rfl : steps' = steps ++ new := hsteps
    obtain ⟨more, hmore, hQ⟩ := hf a tags' (steps ++ new)
    refine ⟨new ++ more, ?_, fun b tags'' hb hfits => ?_⟩
    · rw [← List.append_assoc]
      exact hmore
    · obtain ⟨hnew, hmore⟩ := List.forall_mem_append.mp hfits
      exact hQ b tags'' hb hmore (hP a tags' rfl hnew)

theorem Sized.map {f : α → β} {Q : β → Prop} (hx : Sized x fun a => Q (f a)) :
    Sized (f <$> x) Q := by
  rw [← bind_pure_comp]
  exact hx.bind fun a => Sized.pure id

open Layout

variable {known : String → Option Layout} {G : Layout → Prop} {s : Schema}

/-- Where the size of a layout is a word, it is computed as it is. -/
theorem sized_noteLength (layout : Layout) : Sized (noteLength layout) fun _ =>
    ∀ n, layout.fixedLength? = some n → layout.length64? = some (some n) := by
  unfold noteLength
  cases layout with
  | array item stride capacity =>
    refine (Sized.note _).imp fun _ hfits n hn => ?_
    obtain rfl : capacity * stride = n := Option.some.inj hn
    rw [length64?, word?_of_lt hfits]
    rfl
  | _ => exact Sized.pure fun n hn => congrArg some hn

theorem sized_requireFixed (layout : Layout) (place : String) :
    Sized (Logged.requireFixed layout place) fun n => layout.length64? = some (some n) :=
  (sized_noteLength layout).bind fun _ =>
    Sized.except fun n hn hlength => hlength n (requireFixed_ok hn)

theorem sized_resolve (hknown : ∀ id layout, known id = some layout → G layout)
    {inPlace : LoggedM Layout} (h : Sized inPlace G) :
    Sized (Logged.resolve known s inPlace) G := by
  unfold Logged.resolve
  split
  · refine (Sized.note _).bind fun _ => ?_
    split
    · next hfound => exact Sized.pure fun _ => hknown _ _ hfound
    · exact Sized.throw _
  · split
    · refine (Sized.note _).bind fun _ => ?_
      split
      · next hfound => exact Sized.pure fun _ => hknown _ _ hfound
      · exact h.imp fun _ h _ => h
    · exact h

/-- What the layout of a list can be: a vector, or a run of as many items as the schema admits. -/
theorem listLayout_cases {facts : SchemaFacts} {item layout : Layout} {place : String}
    (h : listLayout facts item place = .ok layout) :
    layout = .vector item (facts.maxItems.map UInt64.toNat)
    ∨ facts.btype = none ∧ ∃ capacity : UInt64, facts.maxItems = some capacity
      ∧ ((∃ p, layout = .packed p capacity.toNat ∧ item = .primitive p)
        ∨ ∃ stride, layout = .array item stride capacity.toNat
          ∧ item.fixedLength? = some stride) := by
  unfold listLayout at h
  split at h
  · cases h
    exact Or.inl rfl
  · cases h
  · next hbtype =>
    refine Or.inr ⟨hbtype, ?_⟩
    cases hmax : facts.maxItems with
    | none =>
      rw [hmax] at h
      cases h
    | some capacity =>
      refine ⟨capacity, rfl, ?_⟩
      rw [hmax] at h
      dsimp only [Option.map] at h
      split at h
      · split_ifs at h
        · cases h
          exact Or.inl ⟨_, rfl, rfl⟩
        · cases h
          exact Or.inr ⟨_, rfl, rfl⟩
      · obtain ⟨n, hn, h⟩ := exists_ok_of_bind h
        cases h
        exact Or.inr ⟨n, rfl, requireFixed_ok hn⟩

theorem sized_listLayout (hG : PassedOnWords G) (facts : SchemaFacts) (item : Layout) (place : String) :
    Sized (Logged.listLayout facts item place) fun layout => (G item → G layout)
      ∧ ∀ n, layout.capacity? = some n → facts.maxItems.map UInt64.toNat = some n := by
  have hparts : ∀ {layout : Layout}, layout.parts = [item] → layout.OnWords → G item → G layout :=
    fun hlayout hwords hitem => hG _ hwords (by
      rw [hlayout]
      exact List.forall_mem_singleton.mpr hitem)
  unfold Logged.listLayout
  split_ifs with hfixed
  · refine (sized_noteLength item).bind fun _ => Sized.except fun layout hlayout hlength => ?_
    rcases listLayout_cases hlayout with
      rfl | ⟨-, capacity, hmax, ⟨p, rfl, rfl⟩ | ⟨stride, rfl, hitem⟩⟩
    · exact ⟨hparts rfl True.intro, fun n hn => by cases hn⟩
    · refine ⟨hparts rfl capacity.toNat_lt, fun n hn => ?_⟩
      rw [hmax]
      exact hn
    · refine ⟨hparts rfl ⟨hlength stride hitem, capacity.toNat_lt⟩, fun n hn => ?_⟩
      rw [hmax]
      exact hn
  · -- no size is asked of the items of a vector
    refine Sized.except fun layout hlayout => ?_
    rcases listLayout_cases hlayout with rfl | ⟨hbtype, capacity, hmax, -⟩
    · exact ⟨hparts rfl True.intro, fun n hn => by cases hn⟩
    · rw [hbtype, hmax] at hfixed
      exact absurd rfl hfixed

/-! ## Records -/

/-- What is asked of the schemas of parts: wherever they stand, their layouts satisfy `G`. -/
def PartsSized (known : String → Option Layout) (G : Layout → Prop) (parts : List Schema) : Prop :=
  ∀ part ∈ parts, ∀ place, Sized (Logged.compile known place part) G

theorem sized_compileOption (hknown : ∀ id layout, known id = some layout → G layout)
    {part : Option Schema} (hpart : PartsSized known G part.toList) (place : String) :
    Sized (Logged.compileOption known place part) G := by
  cases part with
  | none =>
    unfold Logged.compileOption missing
    exact Sized.throw _
  | some s =>
    unfold Logged.compileOption
    exact sized_resolve hknown (hpart s (by simp) place)

/-- The fields of a record have their sizes on words, and their layouts satisfy `G`. -/
def FieldsOnWords (G : Layout → Prop) (fields : List (Field Layout)) : Prop :=
  ∀ f ∈ fields, G f.layout ∧ ∀ span, f.span? = some span →
    f.layout.length64? = some (some span.length) ∧ span.stop < UInt64.size

theorem sized_compileFixed (hknown : ∀ id layout, known id = some layout → G layout)
    {properties : List (String × Schema)} (hparts : PartsSized known G (properties.map (·.2)))
    (place : String) (chosen : String → Bool) (start : Nat) :
    Sized (Logged.compileFixed known place chosen properties start) (FieldsOnWords G) := by
  induction properties generalizing start with
  | nil =>
    unfold Logged.compileFixed
    exact Sized.pure fun f hf => absurd hf List.not_mem_nil
  | cons property rest ih =>
    have hrest : PartsSized known G (rest.map (·.2)) :=
      fun part hpart => hparts part (List.mem_cons_of_mem _ hpart)
    unfold Logged.compileFixed
    split_ifs
    · refine (sized_resolve hknown (hparts property.2 List.mem_cons_self _)).bind fun layout => ?_
      refine (sized_requireFixed layout _).bind fun length => ?_
      refine (Sized.note _).bind fun _ => ?_
      refine (ih hrest (start + length)).bind fun fields => ?_
      refine Sized.pure fun hfields hstop hlength hlayout =>
        List.forall_mem_cons.mpr ⟨⟨hlayout, ?_⟩, hfields⟩
      rintro span ⟨⟩
      exact ⟨hlength, hstop⟩
    · exact ih hrest start

theorem sized_compileOptional (hknown : ∀ id layout, known id = some layout → G layout)
    {properties : List (String × Schema)} (hparts : PartsSized known G (properties.map (·.2)))
    (place : String) (isRequired : String → Bool) (ordinal : Nat) :
    Sized (Logged.compileOptional known place isRequired properties ordinal) (FieldsOnWords G) := by
  induction properties generalizing ordinal with
  | nil =>
    unfold Logged.compileOptional
    exact Sized.pure fun f hf => absurd hf List.not_mem_nil
  | cons property rest ih =>
    have hrest : PartsSized known G (rest.map (·.2)) :=
      fun part hpart => hparts part (List.mem_cons_of_mem _ hpart)
    unfold Logged.compileOptional
    split_ifs
    · exact ih hrest ordinal
    · refine (sized_resolve hknown (hparts property.2 List.mem_cons_self _)).bind fun layout => ?_
      refine (ih hrest (ordinal + 1)).bind fun fields => ?_
      refine Sized.pure fun hfields hlayout => List.forall_mem_cons.mpr ⟨⟨hlayout, ?_⟩, hfields⟩
      rintro span ⟨⟩

/-- Records pass on what the layouts of their fields have. -/
theorem FieldsOnWords.record {fields : List (Field Layout)} (hG : PassedOnWords G)
    (h : FieldsOnWords G fields) : G (.object fields) ∧ G (.map fields) := by
  have hparts : ∀ part ∈ fields.map (·.layout), G part :=
    List.forall_mem_map.mpr fun f hf => (h f hf).1
  exact ⟨hG _ (fun f hf => (h f hf).2) hparts, hG _ (fun f hf => (h f hf).2) hparts⟩

/-! ## Schemas -/

theorem sized_leaf (hG : PassedOnWords G) (facts : SchemaFacts) (t : SchemaType) (place : String) :
    Sized (Logged.lift (compile.leaf facts t place)) fun layout => G layout
      ∧ ∀ n, layout.capacity? = some n → facts.maxItems.map UInt64.toNat = some n := by
  unfold compile.leaf
  split
  · exact Sized.pure ⟨hG.leaf rfl True.intro, fun n hn => by cases hn⟩
  · exact Sized.throw _

/-- Every layout claims its tag in the end, which does not change it. -/
theorem Sized.claimTag {x : LoggedM Layout} {P : Layout → Prop} {place : String} (hx : Sized x P) :
    Sized (x >>= fun layout => Logged.lift (Compile.claimTag layout place) >>= fun _ =>
      Pure.pure layout) P := by
  refine hx.bind fun layout => ?_
  have hclaim : Sized (Logged.lift (Compile.claimTag layout place)) fun _ => True :=
    Sized.lift fun _ _ _ _ => True.intro
  exact hclaim.bind fun _ => Sized.pure fun _ h => h

/-- **One schema.**  What passes from parts that have their sizes on words, and known layouts have, the
layout of a schema has; and it holds as many items as the schema admits. -/
theorem sized_compile (hG : PassedOnWords G)
    (hknown : ∀ id layout, known id = some layout → G layout) (s : Schema) :
    ∀ place, Sized (Logged.compile known place s) fun layout => G layout
      ∧ ∀ n, layout.capacity? = some n → s.maxItems.map UInt64.toNat = some n := by
  induction s using Schema.induction with
  | h s ih =>
    intro place
    have hchildren : PartsSized known G s.children :=
      fun part hpart place => (ih part hpart place).imp fun _ h => h.1
    obtain ⟨facts, properties, items, propertyNames, additionalProperties⟩ := s
    obtain ⟨hproperties, hitems, hkeys, hvalues⟩ := Schema.forall_mem_children.mp hchildren
    have hcap : ∀ n, facts.maxLength.map UInt64.toNat = some n → n < UInt64.size := by
      intro n hn
      obtain ⟨bound, -, rfl⟩ := Option.map_eq_some_iff.mp hn
      exact bound.toNat_lt
    rw [Logged.compile]
    refine (Sized.note _).bind fun _ => Sized.imp ?_ fun _ h _ => h
    dsimp only
    cases facts.type with
    | none => exact (Sized.throw _).claimTag
    | some t =>
      cases t with
      | boolean => exact (sized_leaf hG facts _ place).claimTag
      | integer => exact (sized_leaf hG facts _ place).claimTag
      | number => exact (sized_leaf hG facts _ place).claimTag
      | string =>
        dsimp only
        cases facts.btype with
        | none => exact (Sized.pure ⟨hG.leaf rfl hcap, fun n hn => by cases hn⟩).claimTag
        | some b =>
          cases b with
          | binary => exact (Sized.pure ⟨hG.leaf rfl hcap, fun n hn => by cases hn⟩).claimTag
          | _ => exact (Sized.throw _).claimTag
      | array =>
        refine (sized_compileOption hknown hitems _).bind fun item => Sized.claimTag ?_
        exact (sized_listLayout hG facts item place).imp fun layout h hitem => ⟨h.1 hitem, h.2⟩
      | object =>
        dsimp only
        cases facts.btype with
        | none =>
          refine (Sized.map ((sized_compileFixed hknown hproperties place _ 0).imp ?_)).claimTag
          exact fun fields hfields => ⟨(hfields.record hG).1, fun n hn => by cases hn⟩
        | some b =>
          cases b with
          | map =>
            refine (sized_compileFixed hknown hproperties place _ 0).bind fun fixed => ?_
            refine (sized_compileOptional hknown hproperties place _ 0).bind fun optional =>
              (Sized.pure fun hoptional hfixed => ⟨?_, fun n hn => by cases hn⟩).claimTag
            have hfields : FieldsOnWords G (fixed ++ optional) :=
              List.forall_mem_append.mpr ⟨hfixed, hoptional⟩
            exact (hfields.record hG).2
          | dict =>
            refine (sized_compileOption hknown hkeys _).bind fun key => ?_
            refine (sized_requireFixed key _).bind fun keyLength => ?_
            refine (sized_compileOption hknown hvalues _).bind fun value => Sized.claimTag ?_
            refine Sized.pure fun hvalue hlength hkey => ⟨hG _ hlength ?_, fun n hn => by cases hn⟩
            exact List.forall_mem_cons.mpr ⟨hkey, List.forall_mem_singleton.mpr hvalue⟩
          | _ => exact (Sized.throw _).claimTag

/-! ## Trees -/

theorem sized_compileNodes (hG : PassedOnWords G)
    (hknown : ∀ id layout, known id = some layout → G layout) (d : Dependencies)
    (order : List String) (named : Table String Layout) :
    Sized (Logged.compileNodes known d order named) fun named' =>
      (∀ e ∈ named, G e.2) → ∀ e ∈ named', G e.2 := by
  induction order generalizing named with
  | nil => exact Sized.pure id
  | cons id rest ih =>
    unfold Logged.compileNodes
    split
    · exact ih named
    · next s hs =>
      have hnode : Sized (Logged.compile (lookup known named) id s) fun layout =>
          (∀ e ∈ named, G e.2) → G layout := by
        by_cases hnamed : ∀ e ∈ named, G e.2
        · exact (sized_compile hG (lookup_of_named hknown hnamed) s id).imp fun _ h _ => h.1
        · exact (sized_compile (G := fun _ => True) (fun _ _ _ => True.intro)
            (fun _ _ _ => True.intro) s id).imp fun _ _ h => absurd h hnamed
      refine hnode.bind fun layout => (Sized.note _).bind fun _ => (ih _).imp ?_
      exact fun named' h _ hlayout hnamed => h (Table.forall_insert hnamed (hlayout hnamed) id)

theorem sized_root (hG : PassedOnWords G) (hknown : ∀ id layout, known id = some layout → G layout)
    (root : Schema) (place : String) :
    Sized (Logged.resolve known root (Logged.compile known place root)) fun layout => G layout
      ∧ (root.reference = none → root.id = none →
        ∀ n, layout.capacity? = some n → root.maxItems.map UInt64.toNat = some n) := by
  have hcompile := sized_compile hG hknown root place
  have hresolve := sized_resolve (s := root) hknown (hcompile.imp fun _ h => h.1)
  by_cases hplain : root.reference = none ∧ root.id = none
  · unfold Logged.resolve
    rw [hplain.1, hplain.2]
    exact hcompile.imp fun layout h => ⟨h.1, fun _ _ => h.2⟩
  · exact hresolve.imp fun layout h => ⟨h, fun hs hid => absurd ⟨hs, hid⟩ hplain⟩

/-- **A whole run.**  What it gives has its sizes on words, and so has what it stages. -/
theorem sized_buildTree (hG : PassedOnWords G)
    (hknown : ∀ id layout, known id = some layout → G layout) (root : Schema) (d : Dependencies)
    (order : List String) : Sized (Logged.buildTree known root d order) fun r =>
      (G r.1 ∧ ∀ e ∈ r.2, G e.2) ∧ (root.reference = none → root.id = none →
        ∀ n, r.1.capacity? = some n → root.maxItems.map UInt64.toNat = some n) := by
  unfold Logged.buildTree
  refine (sized_compileNodes hG hknown d order []).bind fun named => ?_
  have hroot : Sized (Logged.resolve (lookup known named) root
      (Logged.compile (lookup known named) (root.id.getD "<root>") root)) fun layout =>
      (∀ e ∈ named, G e.2) → G layout ∧ (root.reference = none → root.id = none →
        ∀ n, layout.capacity? = some n → root.maxItems.map UInt64.toNat = some n) := by
    by_cases hnamed : ∀ e ∈ named, G e.2
    · exact (sized_root hG (lookup_of_named hknown hnamed) root _).imp fun _ h _ => h
    · exact (sized_root (G := fun _ => True) (fun _ _ _ => True.intro)
        (fun _ _ _ => True.intro) root _).imp fun _ _ h => absurd h hnamed
  refine hroot.bind fun layout => Sized.pure fun hlayout hnamed => ?_
  have hnamed := hnamed fun e he => absurd he List.not_mem_nil
  exact ⟨⟨(hlayout hnamed).1, hnamed⟩, (hlayout hnamed).2⟩

end Compile

/-! ## Catalogs -/

namespace Catalog

open Compile Layout

variable {c c' : Catalog} {s : Schema} {layout : Layout}

theorem compile64_eq_some {result : Except CompileError (Layout × Catalog)} :
    c.compile64 s = some result ↔ (∀ e ∈ c.compileSteps s, e.Fits) ∧ c.compile s = result := by
  unfold compile64
  split_ifs with h
  · rw [Option.some.injEq, and_iff_right h]
  · simp [h]

/-- Compiling on words gives layouts that have their sizes on words, if the catalog has such. -/
theorem compile64_onWords (hc : ∀ e ∈ c.named, e.2.AllOnWords)
    (h : c.compile64 s = some (.ok (layout, c'))) : (layout.AllOnWords
      ∧ ∀ e ∈ c'.named, e.2.AllOnWords) ∧ (s.reference = none → s.id = none →
        ∀ n, layout.capacity? = some n → s.maxItems.map UInt64.toNat = some n) := by
  have hknown : ∀ id layout, c.byId? id = some layout → layout.AllOnWords :=
    fun id layout hid => Table.of_find? hc hid
  obtain ⟨hfits, hcompile⟩ := compile64_eq_some.mp h
  rcases compile_eq_ok.mp hcompile with ⟨hfound, rfl⟩ | ⟨hnew, compiled, hcompiled, rfl, rfl⟩
  · obtain ⟨id, hid, hfound⟩ := Option.bind_eq_some_iff.mp hfound
    refine ⟨⟨hknown id layout hfound, hc⟩, fun _ hnone => ?_⟩
    rw [hnone] at hid
    cases hid
  · obtain ⟨d, order, -, -, hd, horder, -⟩ := compileTree_eq_ok.mp hcompiled
    have hsteps : c.compileSteps s = (Logged.buildTree c.byId? s d order [] []).2 := by
      rw [compileSteps, hnew]
      exact congrArg Prod.snd (logged_compileTree_of_order hd horder)
    rw [compileTree_of_order hd horder] at hcompiled
    obtain ⟨⟨⟨root, named⟩, tags⟩, hbuilt, rfl⟩ := exists_ok_of_map hcompiled
    rw [← (buildTree_follows hd horder).1.erased] at hbuilt
    obtain ⟨new, hnewSteps, hgives⟩ := sized_buildTree passedOnWords_all hknown s d order [] []
    rw [hsteps, hnewSteps] at hfits
    obtain ⟨⟨hroot, hnamed⟩, hcapacity⟩ := hgives _ _ hbuilt hfits
    exact ⟨⟨hroot, Table.forall_insertAll hc hnamed⟩, hcapacity⟩

theorem Reachable64.onWords (hc : c.Reachable64) : ∀ e ∈ c.named, e.2.AllOnWords := by
  induction hc with
  | ofSettings s => exact fun e he => absurd he List.not_mem_nil
  | compile hc h ih => exact (compile64_onWords ih h).1.2
  | encodeWith layout v hc ih => exact ih

end Catalog

namespace Layout

variable {layout : Layout} {n : Nat}

theorem fixedRegion_lt {fields : List (Field Layout)}
    (h : ∀ f ∈ fields, ∀ span, f.span? = some span → span.stop < n) (hn : 0 < n) :
    fixedRegion fields < n := by
  have hspans : ∀ span ∈ fixedSpans fields, span.stop < n := by
    intro span hspan
    obtain ⟨f, hf, hspan⟩ := List.mem_filterMap.mp hspan
    exact h f hf span hspan
  exact List.foldlRecOn (motive := (· < n)) _ _ hn
    fun m hm span hspan => Nat.max_lt.mpr ⟨hm, hspans span hspan⟩

/-- A size that is computed on words is a word, and it is the size without a bound. -/
theorem OnWords.length64?_eq_some (h : layout.OnWords) (hn : layout.length64? = some (some n)) :
    n < UInt64.size ∧ layout.fixedLength? = some n := by
  cases layout with
  | array item stride capacity =>
    obtain ⟨m, hm, hmn⟩ := Option.map_eq_some_iff.mp hn
    obtain ⟨hlt, rfl⟩ := word?_eq_some.mp hm
    obtain rfl : capacity * stride = n := Option.some.inj hmn
    exact ⟨hlt, rfl⟩
  | primitive p =>
    obtain rfl : p.width = n := Option.some.inj (Option.some.inj hn)
    refine ⟨?_, rfl⟩
    cases p <;> decide
  | text cap | blob cap => exact ⟨h n (Option.some.inj hn), Option.some.inj hn⟩
  | packed p capacity =>
    obtain rfl : packedLength p capacity = n := Option.some.inj (Option.some.inj hn)
    exact ⟨Nat.mod_lt _ (by decide), rfl⟩
  | object fields =>
    obtain rfl : fixedRegion fields = n := Option.some.inj (Option.some.inj hn)
    exact ⟨fixedRegion_lt (fun f hf span hspan => (h f hf span hspan).2) (by decide), rfl⟩
  | _ => cases hn

/-- A shift loses bits just if the product is no word. -/
theorem shift_eq_iff (p : Primitive) (i : Nat) :
    i <<< p.shift % UInt64.size = i * p.width ↔ i * p.width < UInt64.size := by
  rw [Primitive.width, Nat.shiftLeft_eq]
  constructor
  · intro h
    rw [← h]
    exact Nat.mod_lt _ (by decide)
  · exact Nat.mod_eq_of_lt

/-- The size of an array is computed as it is, with the offsets of all its items, unless it is no
word. -/
theorem length64?_array (item : Layout) (stride capacity : Nat) :
    if capacity * stride < UInt64.size then
      (Layout.array item stride capacity).length64? = some (some (capacity * stride))
        ∧ ∀ i ≤ capacity, itemOffset64? stride i = some (i * stride)
    else (Layout.array item stride capacity).length64? = none := by
  split_ifs with h
  · rw [length64?, word?_of_lt h]
    exact ⟨rfl, fun i hi => word?_of_lt (lt_of_le_of_lt (Nat.mul_le_mul_right _ hi) h)⟩
  · rw [length64?, word?, if_neg h]
    rfl

end Layout

namespace Catalog

open Compile Layout

/-- **Sizes on words.**  Where compiling on words succeeds, it gives the layout that compiling gives,
which holds as many items as the schema admits.  Whatever occurs in the layout, its size on words is
its size.  The items of an array are as long as it takes them to be, and its size is computed as it is,
with the offsets of its items, or else the program stops; so are the ends of fields.  A packed array
alone has a size, and offsets, that are right just if they are words, and else have lost their high
bits. -/
theorem compile64_sizes {c c' : Catalog} {s : Schema} {layout : Layout} (hc : c.Reachable64)
    (h : c.compile64 s = some (.ok (layout, c'))) :
    c.compile s = .ok (layout, c')
    ∧ (s.reference = none → s.id = none →
      ∀ n, layout.capacity? = some n → s.maxItems.map UInt64.toNat = some n)
    ∧ (∀ part, Within part layout → ∀ n, part.length64? = some (some n) →
      n < UInt64.size ∧ part.fixedLength? = some n)
    ∧ (∀ item stride capacity, Within (.array item stride capacity) layout →
      item.length64? = some (some stride) ∧ capacity < UInt64.size
      ∧ if capacity * stride < UInt64.size then
          (Layout.array item stride capacity).length64? = some (some (capacity * stride))
            ∧ ∀ i ≤ capacity, itemOffset64? stride i = some (i * stride)
        else (Layout.array item stride capacity).length64? = none)
    ∧ (∀ part fields, Within part layout → part.fields? = some fields → ∀ f ∈ fields, ∀ span,
      f.span? = some span → f.layout.length64? = some (some span.length) ∧ span.stop < UInt64.size)
    ∧ ∀ p capacity, Within (.packed p capacity) layout → capacity < UInt64.size
      ∧ (Layout.packed p capacity).length64? = some (some (capacity * p.width % UInt64.size))
      ∧ ((Layout.packed p capacity).length64? = some (some (capacity * p.width))
        ↔ capacity * p.width < UInt64.size)
      ∧ ∀ i ≤ capacity, packedOffset p i = i * p.width % UInt64.size
        ∧ (packedOffset p i = i * p.width ↔ i * p.width < UInt64.size) := by
  obtain ⟨⟨hlayout, -⟩, hcapacity⟩ := compile64_onWords hc.onWords h
  have hshift : ∀ (p : Primitive) (i : Nat), i <<< p.shift = i * p.width :=
    fun p i => Nat.shiftLeft_eq i p.shift
  refine ⟨(compile64_eq_some.mp h).2, hcapacity, fun part hpart n hn =>
    (hlayout part hpart).length64?_eq_some hn, fun item stride capacity hpart => ?_,
    fun part fields hpart hfields f hf span hspan => ?_, fun p capacity hpart => ?_⟩
  · obtain ⟨hitem, hfits⟩ := hlayout _ hpart
    exact ⟨hitem, hfits, length64?_array item stride capacity⟩
  · have hwords := hlayout part hpart
    cases part with
    | object fields' | map fields' =>
      obtain rfl : fields' = fields := Option.some.inj hfields
      exact hwords f hf span hspan
    | _ => cases hfields
  · refine ⟨hlayout _ hpart, ?_, ?_, fun i _ => ⟨?_, shift_eq_iff p i⟩⟩
    · rw [length64?, fixedLength?, packedLength, hshift]
      all_goals simp
    · rw [length64?, fixedLength?, Option.some.injEq, Option.some.injEq, packedLength]
      · exact shift_eq_iff p capacity
      all_goals simp
    · rw [packedOffset, hshift]

/-- Three records of two short texts and four numbers. -/
theorem compile64_sizes_records :
    let count : Schema := .scalar .integer .uint16
    let row : Schema := { type := some .object, properties :=
      [("names", { type := some .array, maxItems := some 2, items := some (.string 5) }),
        ("counts", { type := some .array, maxItems := some 4, items := some count })] }
    let s : Schema := { type := some .array, maxItems := some 3, items := some row }
    let names : Layout := .array (.text (some 5)) 5 2
    ∃ layout c', (ofSettings ⟨0⟩).compile64 s = some (.ok (layout, c'))
      ∧ Within names layout ∧ Within (.packed .uint16 4) layout
      ∧ (∀ n, layout.length64? = some (some n) → n < UInt64.size ∧ layout.fixedLength? = some n)
      ∧ names.length64? = some (some 10) ∧ packedOffset .uint16 4 = 8 := by
  intro count row s names
  let fields : List (Field Layout) :=
    [⟨"names", names, .fixed ⟨0, 10⟩, none, none⟩,
      ⟨"counts", .packed .uint16 4, .fixed ⟨10, 8⟩, none, none⟩]
  have hcompile : (ofSettings ⟨0⟩).compile64 s
      = some (.ok (.array (.object fields) 18 3, ofSettings ⟨0⟩)) := by cbv
  have hnames : Within names (.array (.object fields) 18 3) :=
    .array (.object List.mem_cons_self (.self _))
  have hcounts : Within (.packed .uint16 4) (.array (.object fields) 18 3) :=
    .array (.object (List.mem_cons_of_mem _ List.mem_cons_self) (.self _))
  obtain ⟨-, -, hsizes, harrays, -, hpacked⟩ := compile64_sizes (.ofSettings ⟨0⟩) hcompile
  refine ⟨_, _, hcompile, hnames, hcounts, hsizes _ (.self _), ?_, ?_⟩
  · exact (harrays _ _ _ hnames).2.2.1
  · exact ((hpacked _ _ hcounts).2.2.2 4 (by decide)).1

/-- **The exception.**  It is not true that all sizes are exact: a packed array of 2 ^ 61 numbers of
eight bytes has no bytes at all. -/
theorem compile64_wraps : ¬ ∀ (settings : Settings) (s : Schema) (layout : Layout) (c' : Catalog),
    (ofSettings settings).compile64 s = some (.ok (layout, c')) →
      ∀ p capacity, Within (.packed p capacity) layout →
        (Layout.packed p capacity).length64? = some (some (capacity * p.width)) := by
  intro h
  have hsize := h ⟨0⟩
    { type := some .array, maxItems := some (2 ^ 61), items := some (.ofType .number) }
    (.packed .float64 (2 ^ 61)) (ofSettings ⟨0⟩) (by cbv) .float64 (2 ^ 61) (.self _)
  have hzero : (Layout.packed .float64 (2 ^ 61)).length64? = some (some 0) := by decide
  rw [hzero] at hsize
  exact absurd hsize (by decide)

end Catalog

end BinarySchema
