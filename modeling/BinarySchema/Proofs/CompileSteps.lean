/-
# The steps of a compilation

`Compile.Logged` compiles schemas and takes down its steps (`Compile.Step`), those before an error
too: the names that it looks up, the schemas that it compiles by their own members, the sizes that it
computes, and the layouts that it stages.  Apart from that it is the compilation itself.

Once the nodes of a tree have an order, every name is found when it is looked up, among the layouts
staged so far or those known before; so no node is compiled twice, and none that is known
(`compileTree_finds`).  What one schema does is said once (`logs_compile`): if all that it names is
found, it takes no steps besides its own body but quiet ones (`Quiet`), which stage nothing and
compile no named schema.  The run along the order follows by induction (`Progress.nodes`).
-/
import BinarySchema.Proofs.Cycles
import BinarySchema.Proofs.Resolution

namespace BinarySchema

namespace Compile

/-- A step that a compilation takes. -/
inductive Step where
  /-- The name of a reference, or of a schema that has one, is looked up. -/
  | lookup (id : String) (found : Option Layout)
  /-- A schema is compiled by its own members.  It has the name, if any. -/
  | body (id : Option String)
  /-- A sum or product of sizes is computed. -/
  | size (n : Nat)
  /-- The layout of a node is staged under its name. -/
  | stage (id : String) (layout : Layout)

/-- A compilation that takes down its steps. -/
abbrev LoggedM := StateT TagClaims (ExceptT CompileError (StateM (List Step)))

namespace Logged

variable {known : String → Option Layout}

/-- Takes down a step. -/
def note (e : Step) : LoggedM Unit := fun tags steps => (.ok ((), tags), steps ++ [e])

/-- A compilation that takes no steps of its own. -/
def lift {α : Type} (x : CompileM α) : LoggedM α := fun tags steps => (x tags, steps)

/-- Computes the size of a layout in a fixed place.  That of an array is a product. -/
def noteLength (layout : Layout) : LoggedM Unit :=
  match layout with
  | .array _ stride capacity => note (.size (capacity * stride))
  | _ => pure ()

/-- The size of a value that has to lie in a fixed place. -/
def requireFixed (layout : Layout) (place : String) : LoggedM Nat := do
  noteLength layout
  lift (liftM (Compile.requireFixed layout place))

/-- The layout for a schema, by the layouts of names. -/
def resolve (known : String → Option Layout) (s : Schema) (inPlace : LoggedM Layout) :
    LoggedM Layout :=
  match s.reference with
  | some id => do
    note (.lookup id (known id))
    match known id with
    | some layout => pure layout
    | none => lift (throw (.unknownReference id))
  | none =>
    match s.id with
    | some id => do
      note (.lookup id (known id))
      match known id with
      | some layout => pure layout
      | none => inPlace
    | none => inPlace

/-- The layout of a list of items with the given layout.  The size of the items counts if they lie in
fixed places. -/
def listLayout (facts : SchemaFacts) (item : Layout) (place : String) : LoggedM Layout := do
  if facts.btype.isNone && facts.maxItems.isSome then noteLength item
  lift (liftM (Compile.listLayout facts item place))

mutual

/-- Compiles a schema in its place. -/
def compile (known : String → Option Layout) (place : String) : Schema → LoggedM Layout
  | ⟨facts, properties, items, propertyNames, additionalProperties⟩ => do
    note (.body facts.id)
    let layout ← match facts.type with
      | none => lift (missing place)
      | some .boolean => lift (compile.leaf facts .boolean place)
      | some .integer => lift (compile.leaf facts .integer place)
      | some .number => lift (compile.leaf facts .number place)
      | some .string =>
        let cap := facts.maxLength.map UInt64.toNat
        match facts.btype with
        | none => pure (.text cap)
        | some .binary => pure (.blob cap)
        | some _ => lift (throw (.unsupportedType place))
      | some .array => do
        let item ← compileOption known (place ++ "[]") items
        listLayout facts item place
      | some .object =>
        match facts.btype with
        | none => .object <$> compileFixed known place (fun _ => true) properties 0
        | some .map => do
          let isRequired := facts.required.contains
          let fixed ← compileFixed known place isRequired properties 0
          let optional ← compileOptional known place isRequired properties 0
          pure (.map (fixed ++ optional))
        | some .dict => do
          let key ← compileOption known (place ++ "\x7bkey\x7d") propertyNames
          let keyLength ← requireFixed key (place ++ "\x7bkey\x7d")
          let value ← compileOption known (place ++ "\x7bvalue\x7d") additionalProperties
          pure (.dict key keyLength value)
        | some _ => lift (throw (.unsupportedType place))
    lift (claimTag layout place)
    return layout

/-- Compiles a schema that has to be given. -/
def compileOption (known : String → Option Layout) (place : String) :
    Option Schema → LoggedM Layout
  | none => lift (missing place)
  | some s => resolve known s (compile known place s)

/-- Compiles the chosen fields into fixed places.  Each ends at a sum. -/
def compileFixed (known : String → Option Layout) (place : String) (chosen : String → Bool) :
    List (String × Schema) → (start : Nat) → LoggedM (List (Field Layout))
  | [], _ => pure []
  | f :: rest, start =>
    if chosen f.1 then do
      let place' := place ++ "." ++ f.1
      let layout ← resolve known f.2 (compile known place' f.2)
      let length ← requireFixed layout place'
      note (.size (start + length))
      let field := fieldOf f.1 f.2 layout (.fixed ⟨start, length⟩)
      return field :: (← compileFixed known place chosen rest (start + length))
    else compileFixed known place chosen rest start

/-- Compiles all but the required fields into optional ones. -/
def compileOptional (known : String → Option Layout) (place : String)
    (isRequired : String → Bool) :
    List (String × Schema) → (ordinal : Nat) → LoggedM (List (Field Layout))
  | [], _ => pure []
  | f :: rest, ordinal =>
    if isRequired f.1 then compileOptional known place isRequired rest ordinal
    else do
      let layout ← resolve known f.2 (compile known (place ++ "." ++ f.1) f.2)
      let field := fieldOf f.1 f.2 layout (.optional ordinal)
      return field :: (← compileOptional known place isRequired rest (ordinal + 1))

end

/-- Compiles nodes in turn, and stages their layouts. -/
def compileNodes (known : String → Option Layout) (d : Dependencies) :
    (order : List String) → (named : Table String Layout) → LoggedM (Table String Layout)
  | [], named => pure named
  | id :: rest, named =>
    match d.nodes.find? id with
    | none => compileNodes known d rest named
    | some s => do
      let layout ← compile (lookup known named) id s
      note (.stage id layout)
      compileNodes known d rest (named.insert id layout)

/-- Compiles the nodes in the given order, and then the root. -/
def buildTree (known : String → Option Layout) (root : Schema) (d : Dependencies)
    (order : List String) : LoggedM (Layout × Table String Layout) := do
  let named ← compileNodes known d order []
  let lookup := lookup known named
  let layout ← resolve lookup root (compile lookup (root.id.getD "<root>") root)
  return (layout, named)

/-- Compiles a schema and every named schema in it, and gives the steps that it takes. -/
def compileTree (known : String → Option Layout) (root : Schema) :
    Except CompileError Compiled × List Step :=
  match Dependencies.ofSchema (fun id => (known id).isSome) root with
  | .error e => (.error e, [])
  | .ok d =>
    match d.order with
    | .error e => (.error e, [])
    | .ok order =>
      let (result, steps) := buildTree known root d order [] []
      (result.map fun ((layout, named), tags) => ⟨layout, named, tags⟩, steps)

end Logged

/-! ## What the steps add to a compilation -/

/-- No name is missing. -/
def NeverUnknown {α : Type} (y : CompileM α) : Prop :=
  ∀ tags id, y tags ≠ .error (.unknownReference id)

/-- The first compilation does what the second one does, for which no name is missing, and takes down
steps that satisfy `Good`. -/
structure Logs {α : Type} (Good : Step → Prop) (x : LoggedM α) (y : CompileM α) : Prop where
  run : ∀ tags steps, ∃ new, x tags steps = (y tags, steps ++ new) ∧ ∀ e ∈ new, Good e
  found : NeverUnknown y

section Logs

open Logged (note lift)

variable {α β : Type} {Good : Step → Prop} {x : LoggedM α} {y : CompileM α} {e : Step}

theorem neverUnknown_liftM {y : Except CompileError α} (h : ∀ id, y ≠ .error (.unknownReference id)) :
    NeverUnknown (liftM y : CompileM α) := by
  intro tags id hy
  cases y with
  | ok a => cases hy
  | error e =>
    cases hy
    exact h id rfl

theorem neverUnknown_throw {e : CompileError} (h : ∀ id, e ≠ .unknownReference id) :
    NeverUnknown (throw e : CompileM α) :=
  neverUnknown_liftM (y := .error e) fun id heq => h id (Except.error.inj heq)

theorem Logs.lift (hy : NeverUnknown y) : Logs Good (lift y) y where
  run tags steps := ⟨[], by rw [List.append_nil]; rfl, fun e he => absurd he List.not_mem_nil⟩
  found := hy

theorem Logs.throw {e : CompileError} (he : ∀ id, e ≠ .unknownReference id) :
    Logs Good (Logged.lift (MonadExcept.throw e)) (MonadExcept.throw e : CompileM α) :=
  Logs.lift (neverUnknown_throw he)

theorem Logs.pure (a : α) : Logs Good (Pure.pure a) (Pure.pure a) :=
  Logs.lift fun _ _ h => by cases h

/-- What comes after a step goes on from the claims and steps so far, unless that fails. -/
theorem loggedBind_eq (x : LoggedM α) (f : α → LoggedM β) (tags : TagClaims) (steps : List Step) :
    (x >>= f) tags steps = match x tags steps with
      | (.ok (a, tags), steps) => f a tags steps
      | (.error e, steps) => (.error e, steps) := by
  show (ExceptT.bindCont (fun p => f p.1 p.2) (x tags steps).1) (x tags steps).2 = _
  rcases x tags steps with ⟨_ | ⟨a, tags⟩, steps⟩ <;> rfl

theorem Logs.bind {f : α → LoggedM β} {g : α → CompileM β} (hx : Logs Good x y)
    (hf : ∀ a, Logs Good (f a) (g a)) : Logs Good (x >>= f) (y >>= g) := by
  have hy : ∀ tags, (y >>= g) tags = (y tags >>= fun r => g r.1 r.2) := fun _ => rfl
  constructor
  · intro tags steps
    obtain ⟨new, hrun, hnew⟩ := hx.run tags steps
    rw [loggedBind_eq, hrun, hy]
    cases y tags with
    | error e => exact ⟨new, rfl, hnew⟩
    | ok r =>
      obtain ⟨more, hrun, hmore⟩ := (hf r.1).run r.2 (steps ++ new)
      refine ⟨new ++ more, ?_, List.forall_mem_append.mpr ⟨hnew, hmore⟩⟩
      rw [← List.append_assoc]
      exact hrun
  · intro tags id h
    rw [hy] at h
    cases hfirst : y tags with
    | error e =>
      rw [hfirst] at h
      cases h
      exact hx.found tags id hfirst
    | ok r =>
      rw [hfirst] at h
      exact (hf r.1).found r.2 id h

theorem Logs.map {f : α → β} (hx : Logs Good x y) : Logs Good (f <$> x) (f <$> y) := by
  rw [← bind_pure_comp, ← bind_pure_comp]
  exact hx.bind fun a => Logs.pure (f a)

theorem Logs.note (he : Good e) : Logs Good (note e) (Pure.pure ()) where
  run tags steps := ⟨[e], rfl, List.forall_mem_singleton.mpr he⟩
  found := fun _ _ h => by cases h

/-- A first part that only takes down steps. -/
theorem Logs.after {first : LoggedM Unit} {f : Unit → LoggedM α}
    (hfirst : Logs Good first (Pure.pure ())) (hx : Logs Good (f ()) y) :
    Logs Good (first >>= f) y := by
  rw [← pure_bind () fun _ => y]
  exact hfirst.bind fun _ => hx

end Logs

/-! ## One schema -/

/-- The steps of schemas without names that find what they name. -/
def Quiet (known : String → Option Layout) : Step → Prop
  | .lookup id found => found = known id ∧ found.isSome
  | .body id => id = none
  | .size _ => True
  | .stage _ _ => False

variable {known : String → Option Layout} {s : Schema}

theorem logs_noteLength (layout : Layout) :
    Logs (Quiet known) (Logged.noteLength layout) (pure ()) := by
  unfold Logged.noteLength
  split
  · exact Logs.note True.intro
  · exact Logs.pure ()

theorem requireFixed_ne_unknown (layout : Layout) (place id : String) :
    requireFixed layout place ≠ .error (.unknownReference id) := by
  intro h
  unfold requireFixed at h
  split at h <;> cases h

theorem logs_requireFixed (layout : Layout) (place : String) :
    Logs (Quiet known) (Logged.requireFixed layout place) (liftM (requireFixed layout place)) :=
  (logs_noteLength layout).after
    (Logs.lift (neverUnknown_liftM (requireFixed_ne_unknown layout place)))

theorem listLayout_ne_unknown (facts : SchemaFacts) (item : Layout) (place id : String) :
    listLayout facts item place ≠ .error (.unknownReference id) := by
  intro h
  unfold listLayout at h
  split at h
  · cases h
  · cases h
  · split at h
    · split at h
      · split_ifs at h
        all_goals cases h
      · cases hlength : requireFixed item (place ++ "[]") with
        | error e =>
          rw [hlength] at h
          cases h
          exact requireFixed_ne_unknown _ _ _ hlength
        | ok n =>
          rw [hlength] at h
          cases h
    · cases h

theorem logs_listLayout (facts : SchemaFacts) (item : Layout) (place : String) :
    Logs (Quiet known) (Logged.listLayout facts item place)
      (liftM (listLayout facts item place)) := by
  have hlift : Logs (Quiet known) (Logged.lift (liftM (listLayout facts item place)))
      (liftM (listLayout facts item place)) :=
    Logs.lift (neverUnknown_liftM (listLayout_ne_unknown facts item place))
  unfold Logged.listLayout
  split_ifs
  · exact (logs_noteLength item).after hlift
  · exact hlift

theorem logs_claimTag (layout : Layout) (place : String) :
    Logs (Quiet known) (Logged.lift (claimTag layout place)) (claimTag layout place) := by
  refine Logs.lift fun tags id h => ?_
  have hrun := claimTag_run layout place tags
  rw [show (claimTag layout place).run tags = _ from h] at hrun
  split_ifs at hrun
  cases hrun

/-- Every layout claims its tag in the end. -/
theorem Logs.claimTag {x : LoggedM Layout} {y : CompileM Layout} {place : String}
    (hx : Logs (Quiet known) x y) :
    Logs (Quiet known)
      (x >>= fun layout => Logged.lift (Compile.claimTag layout place) >>= fun _ => Pure.pure layout)
      (y >>= fun layout => Compile.claimTag layout place >>= fun _ => Pure.pure layout) :=
  hx.bind fun layout => (logs_claimTag layout place).bind fun _ => Logs.pure layout

theorem logs_leaf (facts : SchemaFacts) (t : SchemaType) (place : String) :
    Logs (Quiet known) (Logged.lift (compile.leaf facts t place)) (compile.leaf facts t place) := by
  refine Logs.lift ?_
  unfold compile.leaf
  split
  · exact fun _ _ h => by cases h
  · exact neverUnknown_throw fun id h => by cases h

/-- Of a schema whose names are found, the layout is found or the schema has no name. -/
theorem logs_resolve {inPlace : LoggedM Layout} {inPlace' : CompileM Layout}
    (hnames : ∀ m, s.Names m → (known m).isSome)
    (h : s.reference = none → s.id = none → Logs (Quiet known) inPlace inPlace') :
    Logs (Quiet known) (Logged.resolve known s inPlace) (resolve known s inPlace') := by
  unfold Logged.resolve resolve
  cases hs : s.reference with
  | some r =>
    obtain ⟨layout, hfound⟩ := Option.isSome_iff_exists.mp (hnames r (.reference hs))
    dsimp only
    rw [hfound]
    exact (Logs.note ⟨hfound.symm, rfl⟩).after (Logs.pure layout)
  | none =>
    cases hid : s.id with
    | some id =>
      obtain ⟨layout, hfound⟩ := Option.isSome_iff_exists.mp (hnames id (.id hs hid))
      rw [Option.bind_some]
      dsimp only
      rw [hfound]
      exact (Logs.note ⟨hfound.symm, rfl⟩).after (Logs.pure layout)
    | none => exact h hs hid

/-- What is asked of the schemas of parts: wherever they stand, a part without a name takes quiet
steps, and the names of each part are found. -/
def PartsLogged (known : String → Option Layout) (parts : List Schema) : Prop :=
  ∀ part ∈ parts, (∀ m, part.Names m → (known m).isSome) ∧ ∀ place,
    part.reference = none → part.id = none →
      Logs (Quiet known) (Logged.compile known place part) (compile known place part)

theorem logs_part {parts : List Schema} (hparts : PartsLogged known parts) {part : Schema}
    (hpart : part ∈ parts) (place : String) :
    Logs (Quiet known) (Logged.resolve known part (Logged.compile known place part))
      (resolve known part (compile known place part)) :=
  logs_resolve (hparts part hpart).1 ((hparts part hpart).2 place)

theorem logs_compileOption {part : Option Schema} (hpart : PartsLogged known part.toList)
    (place : String) :
    Logs (Quiet known) (Logged.compileOption known place part) (compileOption known place part) := by
  cases part with
  | none =>
    unfold Logged.compileOption compileOption missing
    exact Logs.throw fun id h => by cases h
  | some s =>
    unfold Logged.compileOption compileOption
    exact logs_part hpart (by simp) place

theorem logs_compileFixed {properties : List (String × Schema)}
    (hparts : PartsLogged known (properties.map (·.2))) (place : String) (chosen : String → Bool)
    (start : Nat) : Logs (Quiet known) (Logged.compileFixed known place chosen properties start)
      (compileFixed known place chosen properties start) := by
  induction properties generalizing start with
  | nil =>
    unfold Logged.compileFixed compileFixed
    exact Logs.pure []
  | cons property rest ih =>
    have hrest : PartsLogged known (rest.map (·.2)) :=
      fun part hpart => hparts part (List.mem_cons_of_mem _ hpart)
    unfold Logged.compileFixed compileFixed
    split_ifs
    · refine (logs_part hparts List.mem_cons_self _).bind fun layout => ?_
      refine (logs_requireFixed layout _).bind fun length => ?_
      refine (Logs.note True.intro).after ?_
      exact (ih hrest (start + length)).bind fun fields => Logs.pure _
    · exact ih hrest start

theorem logs_compileOptional {properties : List (String × Schema)}
    (hparts : PartsLogged known (properties.map (·.2))) (place : String)
    (isRequired : String → Bool) (ordinal : Nat) :
    Logs (Quiet known) (Logged.compileOptional known place isRequired properties ordinal)
      (compileOptional known place isRequired properties ordinal) := by
  induction properties generalizing ordinal with
  | nil =>
    unfold Logged.compileOptional compileOptional
    exact Logs.pure []
  | cons property rest ih =>
    have hrest : PartsLogged known (rest.map (·.2)) :=
      fun part hpart => hparts part (List.mem_cons_of_mem _ hpart)
    unfold Logged.compileOptional compileOptional
    split_ifs
    · exact ih hrest ordinal
    · refine (logs_part hparts List.mem_cons_self _).bind fun layout => ?_
      exact (ih hrest (ordinal + 1)).bind fun fields => Logs.pure _

/-- **One schema.**  After its own body, a schema below which all names are found takes quiet steps. -/
theorem logs_compile (s : Schema) (hbelow : ∀ m, s.NamesBelow m → (known m).isSome) :
    ∀ place, ∃ x, Logged.compile known place s = (Logged.note (.body s.id) >>= fun _ => x)
      ∧ Logs (Quiet known) x (compile known place s) := by
  induction s using Schema.induction with
  | h s ih =>
    intro place
    have hchildren : PartsLogged known s.children := by
      intro part hpart
      have hnames : ∀ m, part.Names m → (known m).isSome :=
        fun m hm => hbelow m ⟨part, hpart, hm⟩
      refine ⟨hnames, fun place hreference hid => ?_⟩
      obtain ⟨x, hx, hlogs⟩ := ih part hpart
        (fun m hm => hnames m ((Schema.names_of_anonymous hreference hid).mpr hm)) place
      rw [hx]
      exact (Logs.note hid).after hlogs
    obtain ⟨facts, properties, items, propertyNames, additionalProperties⟩ := s
    obtain ⟨hproperties, hitems, hkeys, hvalues⟩ := Schema.forall_mem_children.mp hchildren
    rw [Logged.compile, compile]
    refine ⟨_, rfl, ?_⟩
    dsimp only
    cases facts.type with
    | none => exact (Logs.throw fun id h => by cases h).claimTag
    | some t =>
      cases t with
      | boolean => exact (logs_leaf facts _ place).claimTag
      | integer => exact (logs_leaf facts _ place).claimTag
      | number => exact (logs_leaf facts _ place).claimTag
      | string =>
        dsimp only
        cases facts.btype with
        | none => exact (Logs.pure _).claimTag
        | some b =>
          cases b with
          | binary => exact (Logs.pure _).claimTag
          | _ => exact (Logs.throw fun id h => by cases h).claimTag
      | array =>
        refine (logs_compileOption hitems _).bind fun item => ?_
        exact (logs_listLayout facts item place).claimTag
      | object =>
        dsimp only
        cases facts.btype with
        | none => exact (logs_compileFixed hproperties place _ 0).map.claimTag
        | some b =>
          cases b with
          | map =>
            refine (logs_compileFixed hproperties place _ 0).bind fun fixed => ?_
            refine (logs_compileOptional hproperties place _ 0).bind fun optional => ?_
            exact (Logs.pure _).claimTag
          | dict =>
            refine (logs_compileOption hkeys _).bind fun key => ?_
            refine (logs_requireFixed key _).bind fun keyLength => ?_
            refine (logs_compileOption hvalues _).bind fun value => ?_
            exact (Logs.pure _).claimTag
          | _ => exact (Logs.throw fun id h => by cases h).claimTag

/-! ## Along the order -/

/-- The name of the schema whose body is compiled. -/
def Step.body? : Step → Option String
  | .body id => id
  | _ => none

/-- The name and layout that are staged. -/
def Step.staged? : Step → Option (String × Layout)
  | .stage id layout => some (id, layout)
  | _ => none

/-- The names of the schemas that are compiled by their own members. -/
def compiledIds (steps : List Step) : List String := steps.filterMap Step.body?

/-- The layouts that are staged, under their names. -/
def stagedLayouts (steps : List Step) : Table String Layout := steps.filterMap Step.staged?

/-- A name that is looked up is found, among the layouts staged before or those known. -/
def Step.Found (known : String → Option Layout) (before : List Step) : Step → Prop
  | .lookup id found => ∃ layout, found = some layout
    ∧ ((id, layout) ∈ stagedLayouts before ∨ known id = some layout)
  | _ => True

/-- Every name that is looked up in some steps is found. -/
def AllFound (known : String → Option Layout) (steps : List Step) : Prop :=
  ∀ before e after, steps = before ++ e :: after → e.Found known before

variable {steps new : List Step} {e : Step} {named : Table String Layout} {done rest : List String}
  {d : Dependencies} {id : String} {layout : Layout}

theorem compiledIds_append (steps new : List Step) :
    compiledIds (steps ++ new) = compiledIds steps ++ compiledIds new :=
  List.filterMap_append

theorem stagedLayouts_append (steps new : List Step) :
    stagedLayouts (steps ++ new) = stagedLayouts steps ++ stagedLayouts new :=
  List.filterMap_append

theorem Step.Found.append (h : e.Found known steps) (more : List Step) :
    e.Found known (steps ++ more) := by
  cases e with
  | lookup id found =>
    obtain ⟨layout, hfound, h⟩ := h
    refine ⟨layout, hfound, h.imp_left fun h => ?_⟩
    rw [stagedLayouts_append]
    exact List.mem_append_left _ h
  | _ => exact True.intro

/-- Steps that find their names after the earlier ones. -/
theorem AllFound.append (h : AllFound known steps) (hnew : ∀ e ∈ new, e.Found known steps) :
    AllFound known (steps ++ new) := by
  intro before e after heq
  rcases List.append_eq_append_iff.mp heq with ⟨more, rfl, rfl⟩ | ⟨more, rfl, hmore⟩
  · exact (hnew e (by simp)).append more
  · cases more with
    | nil =>
      rw [List.nil_append] at hmore
      rw [List.append_nil] at hnew
      exact hnew e (by rw [← hmore]; exact List.mem_cons_self)
    | cons e' more =>
      obtain ⟨rfl, -⟩ := List.cons_eq_cons.mp hmore
      exact h before e more rfl

theorem compiledIds_of_quiet (hnew : ∀ e ∈ new, Quiet known e) : compiledIds new = [] := by
  refine List.filterMap_eq_nil_iff.mpr fun e he => ?_
  cases e with
  | body id => exact hnew _ he
  | _ => rfl

theorem stagedLayouts_of_quiet (hnew : ∀ e ∈ new, Quiet known e) : stagedLayouts new = [] := by
  refine List.filterMap_eq_nil_iff.mpr fun e he => ?_
  cases e with
  | stage id layout => exact (hnew _ he).elim
  | _ => rfl

/-- Quiet steps find their names where what can be looked up is staged or known. -/
theorem Step.Found.of_quiet (hkeys : (stagedLayouts steps).keys.Nodup)
    (he : Quiet (Compile.lookup known (stagedLayouts steps)) e) : e.Found known steps := by
  cases e with
  | lookup id found =>
    obtain ⟨rfl, hsome⟩ := he
    obtain ⟨layout, hlayout⟩ := Option.isSome_iff_exists.mp hsome
    refine ⟨layout, hlayout, (Option.or_eq_some_iff.mp hlayout).imp (fun h => ?_) And.right⟩
    exact (Table.find?_eq_some_iff hkeys).mp h
  | _ => exact True.intro

/-- Each name that was looked up was found, these bodies of named schemas were compiled, and layouts
were staged under these names. -/
structure Progress (known : String → Option Layout) (compiled staged : List String)
    (steps : List Step) : Prop where
  found : AllFound known steps
  compiled : compiledIds steps = compiled
  staged : (stagedLayouts steps).keys = staged

variable {compiled staged : List String}

/-- What is staged or known is found. -/
theorem Progress.isSome_lookup (h : Progress known compiled staged steps) {m : String}
    (hm : m ∈ staged ∨ (known m).isSome) : (lookup known (stagedLayouts steps) m).isSome := by
  rw [lookup, Option.isSome_or, Bool.or_eq_true, Table.isSome_find?_iff, h.staged]
  exact hm

theorem Progress.body (h : Progress known compiled staged steps) (id : String) :
    Progress known (compiled ++ [id]) staged (steps ++ [.body (some id)]) where
  found := h.found.append (List.forall_mem_singleton.mpr True.intro)
  compiled := by rw [compiledIds_append, h.compiled]; rfl
  staged := by rw [stagedLayouts_append, ← h.staged]; exact congrArg _ (List.append_nil _)

theorem Progress.stage (h : Progress known compiled staged steps) (id : String) (layout : Layout) :
    Progress known compiled (staged ++ [id]) (steps ++ [.stage id layout]) where
  found := h.found.append (List.forall_mem_singleton.mpr True.intro)
  compiled := by rw [compiledIds_append, h.compiled]; exact List.append_nil _
  staged := by rw [stagedLayouts_append, ← h.staged]; exact List.map_append

/-- Quiet steps change nothing about the progress. -/
theorem Progress.append (h : Progress known compiled staged steps) (hstaged : staged.Nodup)
    (hnew : ∀ e ∈ new, Quiet (lookup known (stagedLayouts steps)) e) :
    Progress known compiled staged (steps ++ new) where
  found := h.found.append fun e he => .of_quiet (h.staged ▸ hstaged) (hnew e he)
  compiled := by rw [compiledIds_append, compiledIds_of_quiet hnew, List.append_nil, h.compiled]
  staged := by rw [stagedLayouts_append, stagedLayouts_of_quiet hnew, List.append_nil, h.staged]

/-- **One node.**  Compiling a node below which all names are found is progress: its body is compiled,
and no other. -/
theorem Progress.node (h : Progress known compiled staged steps) (hstaged : staged.Nodup)
    (hid : s.id = some id) (hbelow : ∀ m, s.NamesBelow m → m ∈ staged ∨ (known m).isSome)
    (tags : TagClaims) : ∃ steps',
      Logged.compile (lookup known (stagedLayouts steps)) id s tags steps
        = (compile (lookup known (stagedLayouts steps)) id s tags, steps')
      ∧ NeverUnknown (compile (lookup known (stagedLayouts steps)) id s)
      ∧ stagedLayouts steps' = stagedLayouts steps
      ∧ Progress known (compiled ++ [id]) staged steps' := by
  obtain ⟨x, hx, hlogs⟩ := logs_compile s (fun m hm => h.isSome_lookup (hbelow m hm)) id
  have hsame : stagedLayouts (steps ++ [.body (some id)]) = stagedLayouts steps := by
    rw [stagedLayouts_append]
    exact List.append_nil _
  obtain ⟨new, hrun, hnew⟩ := hlogs.run tags (steps ++ [.body (some id)])
  rw [← hsame] at hnew
  have hbody := (h.body id).append hstaged hnew
  rw [hid] at hx
  refine ⟨_, ?_, hlogs.found, ?_, hbody⟩
  · rw [hx, loggedBind_eq]
    exact hrun
  · rw [stagedLayouts_append, stagedLayouts_of_quiet hnew, List.append_nil, hsame]

variable {layout : Layout} {tags tags' : TagClaims} {error : CompileError} {steps' : List Step}

/-- A node that is compiled is staged, and the other ones follow. -/
theorem Logged.compileNodes_of_ok {staged : Table String Layout} (hs : d.nodes.find? id = some s)
    (hrun : Logged.compile (lookup known staged) id s tags steps = (.ok (layout, tags'), steps')) :
    Logged.compileNodes known d (id :: rest) staged tags steps
      = Logged.compileNodes known d rest (staged.insert id layout) tags'
        (steps' ++ [.stage id layout]) := by
  rw [Logged.compileNodes, hs]
  dsimp only
  rw [loggedBind_eq, hrun]
  rfl

theorem Logged.compileNodes_of_error {staged : Table String Layout} (hs : d.nodes.find? id = some s)
    (hrun : Logged.compile (lookup known staged) id s tags steps = (.error error, steps')) :
    Logged.compileNodes known d (id :: rest) staged tags steps = (.error error, steps') := by
  rw [Logged.compileNodes, hs]
  dsimp only
  rw [loggedBind_eq, hrun]

/-- A run that takes down its steps does what the other one does, for which no name is missing.  Each
name that it looks up is found, and the nodes are compiled and staged in the given order, up to the
last one or the first error. -/
structure Follows {α : Type} (known : String → Option Layout) (order : List String)
    (r : Except CompileError α × List Step) (result : Except CompileError α) : Prop where
  erased : r.1 = result
  noneMissing : ∀ id, result ≠ .error (.unknownReference id)
  found : AllFound known r.2
  compiled : compiledIds r.2 <+: order
  staged : (stagedLayouts r.2).keys <+: order

/-- **Nodes in their order.**  Compiling nodes that are ready one after the other follows their order,
and at its end they all are staged. -/
theorem Progress.nodes (hd : Complete known d)
    (hids : ∀ id s, d.nodes.find? id = some s → s.id = some id)
    (rest : List String) (hrest : ∀ id ∈ rest, id ∈ d.ids) (hdone : (done ++ rest).Nodup)
    (hready : ∀ earlier id later, rest = earlier ++ id :: later → d.isReady (done ++ earlier) id)
    (h : Progress known done done steps) (tags : TagClaims) :
    Follows known (done ++ rest) (Logged.compileNodes known d rest (stagedLayouts steps) tags steps)
        (compileNodes known d rest (stagedLayouts steps) tags)
      ∧ ∀ named tags', compileNodes known d rest (stagedLayouts steps) tags = .ok (named, tags') →
        named = stagedLayouts (Logged.compileNodes known d rest (stagedLayouts steps) tags steps).2
          ∧ Progress known (done ++ rest) (done ++ rest)
            (Logged.compileNodes known d rest (stagedLayouts steps) tags steps).2 := by
  induction rest generalizing done steps tags with
  | nil =>
    rw [List.append_nil]
    refine ⟨⟨rfl, fun _ => nofun, h.found, ?_, ?_⟩, ?_⟩
    · exact h.compiled ▸ List.prefix_refl _
    · exact h.staged ▸ List.prefix_refl _
    · rintro named tags' ⟨⟩
      exact ⟨rfl, h⟩
  | cons id rest ih =>
    obtain ⟨s, hs⟩ : ∃ s, d.nodes.find? id = some s :=
      Option.isSome_iff_exists.mp (Table.isSome_find?_iff.mpr (hrest id List.mem_cons_self))
    rw [List.append_cons] at hdone ⊢
    have hdone₁ : (done ++ [id]).Nodup := (List.nodup_append'.mp hdone).1
    obtain ⟨hdone₀, -, hnew⟩ := List.nodup_append'.mp hdone₁
    have hnew : id ∉ done := fun hmem => hnew hmem (List.mem_singleton_self id)
    have hbelow : ∀ m, s.NamesBelow m → m ∈ done ∨ (known m).isSome := by
      have hfirst := hready [] id rest rfl
      rw [List.append_nil] at hfirst
      refine fun m hm => ((hd id s hs).2 m hm).imp_left ?_
      rintro ⟨hnode, hdep⟩
      exact Dependencies.isReady_iff.mp hfirst m hnode hdep
    have hlater : ∀ earlier id' later, rest = earlier ++ id' :: later →
        d.isReady (done ++ [id] ++ earlier) id' := by
      intro earlier id' later heq
      rw [List.append_assoc]
      exact hready (id :: earlier) id' later (by rw [heq, List.cons_append])
    obtain ⟨steps', hrun, hknown, hsame, hnode⟩ :=
      h.node hdone₀ (hids id s hs) hbelow tags
    have hsplit : compileNodes known d (id :: rest) (stagedLayouts steps) tags
        = compile (lookup known (stagedLayouts steps)) id s tags >>= fun r =>
          compileNodes known d rest ((stagedLayouts steps).insert id r.1) r.2 := by
      rw [compileNodes, hs]
      rfl
    rw [hsplit]
    cases hcompile : compile (lookup known (stagedLayouts steps)) id s tags with
    | error e =>
      rw [hcompile] at hrun
      rw [Logged.compileNodes_of_error hs hrun]
      refine ⟨⟨rfl, fun id' h => ?_, hnode.found, ?_, ?_⟩, fun named tags' h => by cases h⟩
      · cases h
        exact hknown tags id' hcompile
      · exact hnode.compiled ▸ List.prefix_append _ _
      · rw [hnode.staged, List.append_assoc]
        exact List.prefix_append _ _
    | ok r =>
      have hstage := hnode.stage id r.1
      have hinsert : stagedLayouts (steps' ++ [.stage id r.1])
          = (stagedLayouts steps).insert id r.1 := by
        rw [Table.insert_of_not_mem (h.staged ▸ hnew), stagedLayouts_append, hsame]
        rfl
      have hnext := ih (fun id' hid' => hrest id' (List.mem_cons_of_mem _ hid')) hdone hlater
        hstage r.2
      rw [hinsert] at hnext
      rw [hcompile] at hrun
      rw [Logged.compileNodes_of_ok hs hrun]
      exact hnext

/-- The root takes quiet steps, once all that it names is staged or known. -/
theorem Progress.root (h : Progress known done done steps) {root : Schema}
    (hnames : ∀ m, root.Names m → m ∈ done ∨ (known m).isSome) (place : String) :
    Logs (Quiet (lookup known (stagedLayouts steps)))
      (Logged.resolve (lookup known (stagedLayouts steps)) root
        (Logged.compile (lookup known (stagedLayouts steps)) place root))
      (resolve (lookup known (stagedLayouts steps)) root
        (compile (lookup known (stagedLayouts steps)) place root)) := by
  have hfound : ∀ m, root.Names m → (lookup known (stagedLayouts steps) m).isSome :=
    fun m hm => h.isSome_lookup (hnames m hm)
  refine logs_resolve hfound fun hreference hid => ?_
  obtain ⟨x, hx, hlogs⟩ := logs_compile root
    (fun m hm => hfound m ((Schema.names_of_anonymous hreference hid).mpr hm)) place
  rw [hx]
  exact (Logs.note hid).after hlogs

/-- Compiles the nodes in the given order, and then the root. -/
def buildTree (known : String → Option Layout) (root : Schema) (d : Dependencies)
    (order : List String) : CompileM (Layout × Table String Layout) :=
  compileNodes known d order [] >>= fun named =>
    resolve (lookup known named) root
      (compile (lookup known named) (root.id.getD "<root>") root) >>= fun layout =>
    pure (layout, named)

variable {root : Schema} {order : List String}

/-- After the nodes of a tree have been put in an order, the tree is built. -/
theorem compileTree_of_order (hd : Dependencies.ofSchema (fun id => (known id).isSome) root = .ok d)
    (horder : d.order = .ok order) : compileTree known root
      = (buildTree known root d order []).map fun r => ⟨r.1.1, r.1.2, r.2⟩ := by
  unfold compileTree
  rw [hd]
  show (d.order >>= _) = _
  rw [horder]
  show ((buildTree known root d order).run [] >>= _) = _
  rw [StateT.run]
  cases buildTree known root d order [] <;> rfl

theorem logged_compileTree_of_order
    (hd : Dependencies.ofSchema (fun id => (known id).isSome) root = .ok d)
    (horder : d.order = .ok order) : Logged.compileTree known root
      = ((Logged.buildTree known root d order [] []).1.map fun r => ⟨r.1.1, r.1.2, r.2⟩,
        (Logged.buildTree known root d order [] []).2) := by
  unfold Logged.compileTree
  rw [hd]
  dsimp only
  rw [horder]
  rfl

/-- **A whole run.**  Building a tree follows the order of its nodes; and once it is built, all of
them are staged. -/
theorem buildTree_follows (hd : Dependencies.ofSchema (fun id => (known id).isSome) root = .ok d)
    (horder : d.order = .ok order) :
    Follows known order (Logged.buildTree known root d order [] []) (buildTree known root d order [])
    ∧ ∀ layout named tags, buildTree known root d order [] = .ok ((layout, named), tags) →
      Progress known order order (Logged.buildTree known root d order [] []).2
        ∧ named = stagedLayouts (Logged.buildTree known root d order [] []).2 := by
  have hnodup := Dependencies.nodup_ids hd
  obtain ⟨hcomplete, hnames⟩ := complete_walk hd
  have hids : ∀ id s, d.nodes.find? id = some s → s.id = some id := by
    obtain ⟨rfl, -⟩ := Dependencies.ofSchema_eq_ok.mp hd
    exact fun id s hs => Dependencies.id_nodes_walk root none {}
      (fun node hnode => absurd hnode List.not_mem_nil) (id, s)
      ((Table.find?_eq_some_iff hnodup).mp hs)
  have hperm := Dependencies.perm_of_order hd horder
  obtain ⟨rfl, -⟩ := Dependencies.order_eq_ok_iff.mp horder
  have hstart : Progress known [] [] [] := ⟨fun before e after h => by simp at h, rfl, rfl⟩
  obtain ⟨hfollows, hend⟩ := hstart.nodes hcomplete hids d.settled (fun id => hperm.mem_iff.mp)
    (hperm.nodup_iff.mpr hnodup)
    (fun earlier id later heq => by
      rw [List.nil_append]
      exact (Dependencies.drained_settled hnodup).ordered earlier later id heq) []
  rw [List.nil_append, show stagedLayouts [] = [] from rfl] at hfollows hend
  have hsplit : buildTree known root d d.settled []
      = compileNodes known d d.settled [] [] >>= fun r => (resolve (lookup known r.1) root
        (compile (lookup known r.1) (root.id.getD "<root>") root) >>= fun layout =>
          pure (layout, r.1)) r.2 := rfl
  rw [Logged.buildTree, loggedBind_eq, hsplit]
  rcases hlog : Logged.compileNodes known d d.settled [] [] [] with ⟨result, steps⟩
  rw [hlog] at hfollows hend
  obtain rfl : result = compileNodes known d d.settled [] [] := hfollows.erased
  cases hnodes : compileNodes known d d.settled [] [] with
  | error e =>
    rw [hnodes] at hfollows
    refine ⟨⟨rfl, fun id h => ?_, hfollows.found, hfollows.compiled, hfollows.staged⟩,
      fun layout named tags h => by cases h⟩
    cases h
    exact hfollows.noneMissing id rfl
  | ok r =>
    obtain ⟨named, tags⟩ := r
    obtain ⟨rfl, hprogress⟩ := hend named tags hnodes
    have hroot := (hprogress.root (fun m hm => (hnames m hm).imp_left hperm.mem_iff.mpr)
      (root.id.getD "<root>")).bind fun layout => Logs.pure (layout, stagedLayouts steps)
    obtain ⟨new, hrun, hnew⟩ := hroot.run tags steps
    have hafter := hprogress.append (hperm.nodup_iff.mpr hnodup) hnew
    dsimp only
    rw [hrun]
    refine ⟨⟨rfl, hroot.found tags, hafter.found, ?_, ?_⟩, fun layout named tags' h => ?_⟩
    · exact hafter.compiled ▸ List.prefix_refl _
    · exact hafter.staged ▸ List.prefix_refl _
    · obtain ⟨⟨layout', tags''⟩, -, heq⟩ := exists_ok_of_bind (show
        (resolve (lookup known (stagedLayouts steps)) root
          (compile (lookup known (stagedLayouts steps)) (root.id.getD "<root>") root) tags >>=
            fun r => .ok ((r.1, stagedLayouts steps), r.2)) = .ok ((layout, named), tags') from h)
      cases heq
      refine ⟨hafter, ?_⟩
      rw [stagedLayouts_append, stagedLayouts_of_quiet hnew, List.append_nil]

/-! ## Trees -/

/-- **Names are found when they are looked up.**  If the nodes of a tree have an order, then compiling
it, up to its end or its first error, looks up no name, of a reference or of a schema, that is neither
staged by then nor known before.  So it compiles the nodes in their order, each once at most, and
stages none twice and none that is known; it never fails for want of a name; and at its end all nodes
are compiled and staged. -/
theorem compileTree_finds (hd : Dependencies.ofSchema (fun id => (known id).isSome) root = .ok d)
    (horder : d.order = .ok order) :
    let steps := (Logged.compileTree known root).2
    (Logged.compileTree known root).1 = compileTree known root
      ∧ AllFound known steps
      ∧ compiledIds steps <+: order ∧ (compiledIds steps).Nodup
      ∧ (stagedLayouts steps).keys <+: order ∧ (stagedLayouts steps).keys.Nodup
      ∧ (∀ id ∈ (stagedLayouts steps).keys, known id = none)
      ∧ (∀ id, compileTree known root ≠ .error (.unknownReference id))
      ∧ ∀ compiled, compileTree known root = .ok compiled →
        compiledIds steps = order ∧ stagedLayouts steps = compiled.named := by
  intro steps
  obtain ⟨hfollows, hend⟩ := buildTree_follows hd horder
  have hperm := Dependencies.perm_of_order hd horder
  have hnodup : order.Nodup := hperm.nodup_iff.mpr (Dependencies.nodup_ids hd)
  have hsteps : steps = (Logged.buildTree known root d order [] []).2 :=
    congrArg Prod.snd (logged_compileTree_of_order hd horder)
  have hresult : (Logged.compileTree known root).1 = compileTree known root := by
    rw [logged_compileTree_of_order hd horder, compileTree_of_order hd horder, hfollows.erased]
  rw [hsteps]
  refine ⟨hresult, hfollows.found, hfollows.compiled, hfollows.compiled.sublist.nodup hnodup,
    hfollows.staged, hfollows.staged.sublist.nodup hnodup, fun id hid => ?_, fun id h => ?_,
    fun compiled h => ?_⟩
  · have hnew := (Dependencies.ofSchema_meets hd).fresh.2 id
      (hperm.mem_iff.mp (hfollows.staged.subset hid))
    exact Option.not_isSome_iff_eq_none.mp hnew.1
  · rw [compileTree_of_order hd horder] at h
    cases hbuild : buildTree known root d order [] with
    | error e =>
      rw [hbuild] at h
      cases h
      exact hfollows.noneMissing id hbuild
    | ok r =>
      rw [hbuild] at h
      cases h
  · rw [compileTree_of_order hd horder] at h
    cases hbuild : buildTree known root d order [] with
    | error e =>
      rw [hbuild] at h
      cases h
    | ok r =>
      obtain ⟨hprogress, hnamed⟩ := hend r.1.1 r.1.2 r.2 hbuild
      rw [hbuild] at h
      cases h
      exact ⟨hprogress.compiled, hnamed.symm⟩

/-- A fleet refers to a known port and to its crew, whose schema stands twice in it, once in a list
without a name. -/
theorem compileTree_finds_fleet :
    let known : String → Option Layout :=
      fun id => if id = "Port" then some (.text (some 4)) else none
    let crew : Schema := { id := some "Crew", type := some .integer, btype := some .uint8 }
    let ship : Schema := { id := some "Ship", type := some .object, properties :=
      [("home", { id := some "Port", type := some .string }),
        ("berths", { type := some .array, maxItems := some 2, items := some (.referTo "Crew") })] }
    let root : Schema := { type := some .object, properties :=
      [("flagship", ship), ("port", .referTo "Port"), ("admiral", crew),
        ("crews", { type := some .array, maxItems := some 3, items := some crew })] }
    let d := Dependencies.walk (fun id => (known id).isSome) none root {}
    Dependencies.ofSchema (fun id => (known id).isSome) root = .ok d
      ∧ d.order = .ok ["Crew", "Ship"]
      ∧ AllFound known (Logged.compileTree known root).2
      ∧ compiledIds (Logged.compileTree known root).2 = ["Crew", "Ship"] := by
  intro known crew ship root d
  have hd : Dependencies.ofSchema (fun id => (known id).isSome) root = .ok d := by cbv
  have horder : d.order = .ok ["Crew", "Ship"] := by cbv
  obtain ⟨compiled, hcompiled⟩ : ∃ compiled, compileTree known root = .ok compiled := ⟨_, by cbv⟩
  obtain ⟨-, hfound, -, -, -, -, -, -, hend⟩ := compileTree_finds hd horder
  exact ⟨hd, horder, hfound, (hend compiled hcompiled).1⟩

end Compile

end BinarySchema
