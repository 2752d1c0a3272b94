/-
# Dependencies between named schemas

A schema with an id is a node.  It depends on every id that occurs below it, up to the next node or
reference on each path, whether that id is defined there or referred to.  A node whose id is known
already, from an earlier compilation or from earlier in the walk, is not walked again.

`Dependencies.order` puts the nodes so that each comes after all that it depends on, and otherwise
in the order in which they were met.  Nodes that depend on a cycle have no place in it.
-/
import BinarySchema.Catalog.Error
import BinarySchema.Schema
import BinarySchema.Table

namespace BinarySchema

/-- The named schemas of a tree, and the ids that each of them depends on. -/
structure Dependencies where
  /-- The nodes, in the order in which they were met. -/
  nodes : Table String Schema := []
  /-- Each node with an id that it depends on, in the order in which they were met. -/
  edges : List (String × String) := []
  /-- The ids that are referred to, in the order in which they were met. -/
  references : List String := []

namespace Dependencies

/-- Notes that the schema that is being walked, if it has a name, depends on an id. -/
def addEdge (d : Dependencies) (owner : Option String) (id : String) : Dependencies :=
  match owner with
  | none => d
  | some owner => { d with edges := d.edges ++ [(owner, id)] }

/-- Notes a reference. -/
def addReference (d : Dependencies) (owner : Option String) (id : String) : Dependencies :=
  let d := d.addEdge owner id
  { d with references := d.references ++ [id] }

/-- Notes a node. -/
def addNode (d : Dependencies) (id : String) (s : Schema) : Dependencies :=
  { d with nodes := d.nodes ++ [(id, s)] }

mutual

/-- Walks a schema.  `owner` is the innermost node that it belongs to, and `known` tells the ids of
earlier compilations. -/
def walk (known : String → Bool) (owner : Option String) : Schema → Dependencies → Dependencies
  | ⟨facts, properties, items, propertyNames, additionalProperties⟩, d =>
    let walkChildren (owner : Option String) (d : Dependencies) : Dependencies :=
      walkOption known owner additionalProperties <|
        walkOption known owner propertyNames <|
          walkOption known owner items <| walkFields known owner properties d
    match facts.reference, facts.id with
    | some reference, _ => d.addReference owner reference
    | none, none => walkChildren owner d
    | none, some id =>
      let d := d.addEdge owner id
      if d.nodes.hasKey id || known id then d
      else
        walkChildren (some id)
          (d.addNode id ⟨facts, properties, items, propertyNames, additionalProperties⟩)

/-- Walks a schema that may be missing. -/
def walkOption (known : String → Bool) (owner : Option String) :
    Option Schema → Dependencies → Dependencies
  | none, d => d
  | some s, d => walk known owner s d

/-- Walks the fields of a record. -/
def walkFields (known : String → Bool) (owner : Option String) :
    List (String × Schema) → Dependencies → Dependencies
  | [], d => d
  | f :: rest, d => walkFields known owner rest (walk known owner f.2 d)

end

/-- The dependencies of a tree of schemas.  A reference has to lead to a node of the tree or to a
known id. -/
def ofSchema (known : String → Bool) (root : Schema) : Except CompileError Dependencies :=
  let d := walk known none root {}
  match d.references.find? fun id => !d.nodes.hasKey id && !known id with
  | some id => .error (.unknownReference id)
  | none => .ok d

/-- The ids of the nodes, in the order in which they were met. -/
def ids (d : Dependencies) : List String := d.nodes.keys

/-- Whether a node depends on an id directly. -/
def dependsOn (d : Dependencies) (owner id : String) : Bool := d.edges.contains (owner, id)

/-- Whether every node that a node depends on directly is among the given ones. -/
def isReady (d : Dependencies) (done : List String) (owner : String) : Bool :=
  d.ids.all fun id => !d.dependsOn owner id || done.contains id

/-- Takes nodes off a queue and puts behind it those that become ready by that.  At most `fuel`
nodes are taken. -/
def drain (d : Dependencies) : (fuel : Nat) → (queue done : List String) → List String
  | 0, _, done => done
  | _ + 1, [], done => done
  | fuel + 1, id :: queue, done =>
    let done := done ++ [id]
    let released := d.ids.filter fun owner => d.dependsOn owner id && d.isReady done owner
    drain d fuel (queue ++ released) done

/-- The nodes that do not depend on a cycle, each after those that it depends on. -/
def settled (d : Dependencies) : List String :=
  drain d d.ids.length (d.ids.filter (d.isReady [])) []

/-- The nodes in an order in which they can be compiled.  Those that have no place in one are
reported in ascending order. -/
def order (d : Dependencies) : Except CompileError (List String) :=
  let settled := d.settled
  match d.ids.filter fun id => !settled.contains id with
  | [] => .ok settled
  | stuck => .error (.cycle (stuck.mergeSort fun a b => decide (a ≤ b)))

end Dependencies

end BinarySchema
