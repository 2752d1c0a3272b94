/-
# Compiling schemas

`compileTree` turns a schema and every named schema in it into layouts.  Named schemas are compiled
first, each after those that it depends on, so that a name always stands for a layout that is there
already; any other schema is compiled in the place where it stands.

A record whose field `tag` has a default claims that number as its tag.
-/
import BinarySchema.Catalog.Dependencies
import BinarySchema.Layout.Encode

namespace BinarySchema

/-- The tags that have been claimed, each with its layout, the last one last. -/
abbrev TagClaims := List (UInt8 × Layout)

/-- A compilation: it may fail, and it gathers the tags that are claimed. -/
abbrev CompileM := StateT TagClaims (Except CompileError)

namespace Compile

/-- The name of the field that holds the tag of a record. -/
def tagName : String := "tag"

/-- The size of a value that has to lie in a fixed place. -/
def requireFixed (layout : Layout) (place : String) : Except CompileError Nat :=
  match layout.fixedLength?, layout with
  | some n, _ => .ok n
  | none, .text _ | none, .blob _ => .error (.unboundedString place)
  | none, _ => .error (.notFixedSize place)

/-- The tag of a record whose tag field has a default, if it can be read from the first byte. -/
def tagOf? (f : Field Layout) (default : Value) : Option UInt8 :=
  match f.place, default.toUInt64? with
  | .fixed ⟨0, 1⟩, some n => if n.toNat < 256 then some n.toUInt8 else none
  | _, _ => none

/-- Claims the tag of a layout, if it has one. -/
def claimTag (layout : Layout) (place : String) : CompileM Unit :=
  match layout.fields?.bind fun fields => Layout.fieldNamed? fields tagName with
  | none => pure ()
  | some f =>
    match f.default with
    | none => pure ()
    | some default =>
      match tagOf? f default with
      | some tag => modify (· ++ [(tag, layout)])
      | none => throw (.misplacedTag place)

/-- The field of a record for a schema. -/
def fieldOf (name : String) (s : Schema) (layout : Layout) (place : Place) : Field Layout :=
  ⟨name, layout, place, s.defaultValue?, s.maxLength.map UInt64.toNat⟩

/-- The layout for a schema, by the layouts of names: of the schema it refers to, or its own if it
has a name.  Any other schema is compiled in place. -/
def resolve (known : String → Option Layout) (s : Schema) (inPlace : CompileM Layout) :
    CompileM Layout :=
  match s.reference with
  | some id =>
    match known id with
    | some layout => pure layout
    | none => throw (.unknownReference id)
  | none =>
    match s.id.bind known with
    | some layout => pure layout
    | none => inPlace

/-- What stands in a place where a schema is needed and none is given. -/
def missing {α : Type} (place : String) : CompileM α := throw (.missingType place)

/-- The layout of a list of items with the given layout. -/
def listLayout (facts : SchemaFacts) (item : Layout) (place : String) :
    Except CompileError Layout := do
  match facts.btype with
  | some .vector => return .vector item (facts.maxItems.map UInt64.toNat)
  | some btype => throw (.unsupportedType (place ++ " (" ++ btype.label ++ ")"))
  | none =>
    let some capacity := facts.maxItems.map UInt64.toNat | throw (.unboundedArray place)
    match item with
    | .primitive p =>
      if p.isNumeric then return .packed p capacity else return .array item p.width capacity
    | _ => return .array item (← requireFixed item (place ++ "[]")) capacity

mutual

/-- Compiles a schema in its place, whatever its name. -/
def compile (known : String → Option Layout) (place : String) : Schema → CompileM Layout
  | ⟨facts, properties, items, propertyNames, additionalProperties⟩ => do
    let layout ← match facts.type with
      | none => missing place
      | some .boolean => leaf facts .boolean place
      | some .integer => leaf facts .integer place
      | some .number => leaf facts .number place
      | some .string =>
        let cap := facts.maxLength.map UInt64.toNat
        match facts.btype with
        | none => pure (.text cap)
        | some .binary => pure (.blob cap)
        | some _ => throw (.unsupportedType place)
      | some .array => do
        let item ← compileOption known (place ++ "[]") items
        listLayout facts item place
      | some .object =>
        match facts.btype with
        | none => .object <$> compileFixed known place (fun _ => true) properties 0
        | some .map => do
          let isRequired := facts.required.contains
          let fixed ← compileFixed known place isRequired properties 0
          let optional ← compileOptional known place isRequired properties 0
          pure (.map (fixed ++ optional))
        | some .dict => do
          let key ← compileOption known (place ++ "\x7bkey\x7d") propertyNames
          let keyLength ← requireFixed key (place ++ "\x7bkey\x7d")
          let value ← compileOption known (place ++ "\x7bvalue\x7d") additionalProperties
          pure (.dict key keyLength value)
        | some _ => throw (.unsupportedType place)
    claimTag layout place
    return layout
where
  /-- The layout of a number or truth value. -/
  leaf (facts : SchemaFacts) (t : SchemaType) (place : String) : CompileM Layout :=
    match Primitive.ofTypes? t facts.btype with
    | some p => pure (.primitive p)
    | none => throw (.unsupportedType place)

/-- Compiles a schema that has to be given. -/
def compileOption (known : String → Option Layout) (place : String) :
    Option Schema → CompileM Layout
  | none => missing place
  | some s => resolve known s (compile known place s)

/-- Compiles the chosen fields into fixed places, one after the other from `start` on. -/
def compileFixed (known : String → Option Layout) (place : String) (chosen : String → Bool) :
    List (String × Schema) → (start : Nat) → CompileM (List (Field Layout))
  | [], _ => pure []
  | f :: rest, start =>
    if chosen f.1 then do
      let place' := place ++ "." ++ f.1
      let layout ← resolve known f.2 (compile known place' f.2)
      let length ← requireFixed layout place'
      let field := fieldOf f.1 f.2 layout (.fixed ⟨start, length⟩)
      return field :: (← compileFixed known place chosen rest (start + length))
    else compileFixed known place chosen rest start

/-- Compiles all but the required fields into optional ones, numbered from `ordinal` on. -/
def compileOptional (known : String → Option Layout) (place : String)
    (isRequired : String → Bool) :
    List (String × Schema) → (ordinal : Nat) → CompileM (List (Field Layout))
  | [], _ => pure []
  | f :: rest, ordinal =>
    if isRequired f.1 then compileOptional known place isRequired rest ordinal
    else do
      let layout ← resolve known f.2 (compile known (place ++ "." ++ f.1) f.2)
      let field := fieldOf f.1 f.2 layout (.optional ordinal)
      return field :: (← compileOptional known place isRequired rest (ordinal + 1))

end

end Compile

/-! ## Trees of schemas -/

/-- What a compilation gives. -/
structure Compiled where
  /-- The layout of the schema itself. -/
  root : Layout
  /-- The layouts of the named schemas that were not known before. -/
  named : Table String Layout
  /-- The tags that were claimed. -/
  tags : TagClaims

namespace Compile

/-- The layout under a name: a new one, or else one that was known before. -/
def lookup (known : String → Option Layout) (named : Table String Layout) (id : String) :
    Option Layout :=
  (named.find? id).or (known id)

/-- Compiles nodes in turn. -/
def compileNodes (known : String → Option Layout) (d : Dependencies) :
    (order : List String) → (named : Table String Layout) → CompileM (Table String Layout)
  | [], named => pure named
  | id :: rest, named =>
    match d.nodes.find? id with
    | none => compileNodes known d rest named
    | some s => do
      let layout ← compile (lookup known named) id s
      compileNodes known d rest (named.insert id layout)

/-- Compiles a schema and every named schema in it. -/
def compileTree (known : String → Option Layout) (root : Schema) : Except CompileError Compiled := do
  let d ← Dependencies.ofSchema (fun id => (known id).isSome) root
  let order ← d.order
  let build : CompileM (Layout × Table String Layout) := do
    let named ← compileNodes known d order []
    let lookup := lookup known named
    let layout ← resolve lookup root (compile lookup (root.id.getD "<root>") root)
    return (layout, named)
  let ((layout, named), tags) ← build.run []
  return ⟨layout, named, tags⟩

end Compile

end BinarySchema
