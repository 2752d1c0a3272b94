/-
# Reading schemas

A schema is read from a JSON draft: an object, whose unknown members are passed over unread, or an
array that gives the members by position.  A member that is `null` counts as missing, save for
`properties` and `required`, where it is a fault.  Every fault makes the whole schema unreadable.
-/
import BinarySchema.Json.Reader
import BinarySchema.Schema.Member

namespace BinarySchema

namespace Json.Draft

/-- The string, if the draft is one. -/
def text? : Draft → Option String
  | .text s => s
  | _ => none

/-- The natural number, if the draft is one. -/
def natural? : Draft → Option UInt64
  | .number (some (.natural n)) => some n
  | _ => none

/-- The strings, if the draft is an array of them. -/
def texts? (room : Room) : Draft → Option (List String)
  | .list items => do
    let _ ← room.enter?
    items.mapM text?
  | _ => none

/-- The name that a draft gives: a string, or an object whose only member has that name and is
`null`. -/
def choice? (room : Room) : Draft → Option String
  | .text s => s
  | .object [(name, .null)] => do
    let _ ← room.enter?
    name
  | _ => none

/-- Reads what may be missing: `null` is. -/
def optional? {α : Type} (d : Draft) (read : Draft → Option α) : Option (Option α) :=
  if d.isNull then some none else (read d).map some

end Json.Draft

open Json (Draft Room)

/-- The type that a draft names. -/
def SchemaType.ofDraft? (room : Room) (d : Draft) : Option SchemaType :=
  (d.choice? room).bind SchemaType.ofName?

/-- The type that a JSON document names. -/
def SchemaType.ofJson? (j : Json) : Option SchemaType := ofDraft? none j.draft

/-- The binary type that a draft names. -/
def BinaryType.ofDraft? (room : Room) (d : Draft) : Option BinaryType :=
  (d.choice? room).bind BinaryType.ofName?

/-- The binary type that a JSON document names. -/
def BinaryType.ofJson? (j : Json) : Option BinaryType := ofDraft? none j.draft

namespace Schema

/-- A schema of which some members have been read, and which these are. -/
structure Partial where
  /-- The members read so far. -/
  seen : List SchemaMember := []
  /-- The schema that they give. -/
  schema : Schema := {}

/-- Reads one member.  The draft of a member that holds schemas is read by the last two arguments:
as one schema, or as the fields of a record. -/
def Partial.read? (room : Room) (p : Partial) (m : SchemaMember) (d : Draft)
    (schema? : Unit → Option Schema) (fields? : Unit → Option (List (String × Schema))) :
    Option Partial := do
  let s := p.schema
  let s : Schema ← match m with
    | .id => (d.optional? Draft.text?).map fun x => { s with id := x }
    | .reference => (d.optional? Draft.text?).map fun x => { s with reference := x }
    | .type => (d.optional? (SchemaType.ofDraft? room)).map fun x => { s with type := x }
    | .btype => (d.optional? (BinaryType.ofDraft? room)).map fun x => { s with btype := x }
    | .properties => (fields? ()).map fun x => { s with properties := x }
    | .items => (d.optional? fun _ => schema? ()).map fun x => { s with items := x }
    | .required => (d.texts? room).map fun x => { s with required := x }
    | .maxLength => (d.optional? Draft.natural?).map fun x => { s with maxLength := x }
    | .maxItems => (d.optional? Draft.natural?).map fun x => { s with maxItems := x }
    | .propertyNames => (d.optional? fun _ => schema? ()).map fun x => { s with propertyNames := x }
    | .additionalProperties =>
      (d.optional? fun _ => schema? ()).map fun x => { s with additionalProperties := x }
    | .default =>
      (d.optional? fun d => d.toJson? room).map fun x => { s with default := x }
  return ⟨m :: p.seen, s⟩

mutual

/-- Reads a schema. -/
def read? (room : Room) : Draft → Option Schema
  | .object members => do
    let room ← room.enter?
    readMembers? room members {}
  | .list items => do
    let room ← room.enter?
    readPositions? room items SchemaMember.all {}
  | _ => none

/-- Reads the members of an object.  No member of a schema may come twice. -/
def readMembers? (room : Room) : List (Option String × Draft) → Partial → Option Schema
  | [], p => some p.schema
  | m :: rest, p => do
    let name ← m.1
    match SchemaMember.ofName? name with
    | none => readMembers? room rest p
    | some member =>
      if member ∈ p.seen then none
      else
        let p ← p.read? room member m.2 (fun _ => read? room m.2) (fun _ => readFields? room m.2)
        readMembers? room rest p

/-- Reads the members that an array gives by position.  It gives no more than there are. -/
def readPositions? (room : Room) : List Draft → List SchemaMember → Partial → Option Schema
  | [], _, p => some p.schema
  | _ :: _, [], _ => none
  | d :: rest, member :: members, p => do
    let p ← p.read? room member d (fun _ => read? room d) (fun _ => readFields? room d)
    readPositions? room rest members p

/-- Reads the fields of a record. -/
def readFields? (room : Room) : Draft → Option (List (String × Schema))
  | .object members => do
    let room ← room.enter?
    return Table.ofList (← readEachField? room members)
  | _ => none

/-- Reads the schema of each field of a record. -/
def readEachField? (room : Room) : List (Option String × Draft) → Option (List (String × Schema))
  | [] => some []
  | m :: rest => do
    let name ← m.1
    let s ← read? room m.2
    return (name, s) :: (← readEachField? room rest)

end

/-- The schema that a JSON document describes. -/
def ofJson? (j : Json) : Option Schema := read? none j.draft

/-- The schema that a JSON text describes. -/
def ofText? (s : String) : Option Schema := (Draft.ofText? s).bind (read? Room.ofText)

end Schema

end BinarySchema
