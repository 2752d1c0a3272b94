/-
# The catalog

A catalog compiles schemas and remembers the layouts of those that have a name, by name and by tag.

A tag is the default of the field `tag` of a record.  It is the first byte of every encoded value of
that record, so that any byte string can be read without saying what it holds.
-/
import BinarySchema.Catalog.Compile
import BinarySchema.Settings
import BinarySchema.Window
import BinarySchema.Workspace

namespace BinarySchema

/-- Layouts by name and by tag, and a workspace for encoding. -/
structure Catalog where
  /-- The layouts of named schemas. -/
  named : Table String Layout := []
  /-- The layouts of records with a tag. -/
  tagged : Table UInt8 Layout := []
  /-- The workspace. -/
  workspace : Workspace

namespace Catalog

/-- The catalog without layouts. -/
def ofSettings (s : Settings) : Catalog := { workspace := .ofCapacity s.capacity }

/-- The layout under a name. -/
def byId? (c : Catalog) (id : String) : Option Layout := c.named.find? id

/-- The layout under a tag. -/
def byTag? (c : Catalog) (tag : UInt8) : Option Layout := c.tagged.find? tag

/-- The number of named layouts. -/
def size (c : Catalog) : Nat := c.named.length

/-- Compiles a schema.  Every named schema in it that is not known yet is remembered, and so is
every tag, the later of two claims to one tag winning.  Where compiling fails, nothing is. -/
def compile (c : Catalog) (s : Schema) : Except CompileError (Layout × Catalog) :=
  match s.id.bind c.byId? with
  | some layout => .ok (layout, c)
  | none => do
    let compiled ← Compile.compileTree c.byId? s
    let insertAll {κ : Type} [BEq κ] (t entries : Table κ Layout) : Table κ Layout :=
      entries.foldl (fun t e => t.insert e.1 e.2) t
    return (compiled.root,
      { c with
        named := insertAll c.named compiled.named
        tagged := insertAll c.tagged compiled.tags })

/-! ## Values that carry a tag -/

/-- The layout that the tag of a record names. -/
def layoutOf? (c : Catalog) (v : Value) : Option Layout := do
  let tag ← (← v.get? Compile.tagName).toUInt64?
  if tag.toNat < 256 then c.byTag? tag.toUInt8 else none

/-- The window to a byte string whose first byte is a tag. -/
def window? (c : Catalog) (b : Bytes) : Option Window := do
  let tag ← b.head?
  return ⟨← c.byTag? tag, b⟩

/-- Decodes a byte string whose first byte is a tag. -/
def decode? (c : Catalog) (b : Bytes) : Option Value := (c.window? b).map Window.value

/-- Encodes a value in the workspace. -/
def encodeWith (c : Catalog) (layout : Layout) (v : Value) : Bytes × Catalog :=
  let (b, workspace) := c.workspace.encode layout v
  (b, { c with workspace })

/-- Encodes a record by the layout that its tag names. -/
def encode? (c : Catalog) (v : Value) : Option (Bytes × Catalog) :=
  (c.layoutOf? v).map fun layout => c.encodeWith layout v

/-- Encodes a value by the layout under a name. -/
def encodeAs? (c : Catalog) (id : String) (v : Value) : Option (Bytes × Catalog) :=
  (c.byId? id).map fun layout => c.encodeWith layout v

/-- The number of bytes that a record needs in full, by the layout that its tag names. -/
def encodedLength? (c : Catalog) (v : Value) : Option Nat :=
  (c.layoutOf? v).map fun layout => layout.encodedLength v

end Catalog

end BinarySchema
