/-
# Encoding

Three ways to write a value to the front of a byte string, all of which keep its length.

* `encode` writes the whole region of the value, with zeros wherever the value supplies nothing.
* `amend` keeps the bytes of those parts of a region that the value does not supply.
* `encodeOver` first seeds the region with the defaults of the layout and then amends it, so that
  a field that is missing reads as its default.

`toBytes` encodes a value over a new byte string that is as long as it needs.
-/
import BinarySchema.Layout.Key
import BinarySchema.Layout.Slots

namespace BinarySchema

namespace Layout

/-- What becomes of those parts of a region that a value does not supply. -/
inductive Unsupplied where
  /-- They are filled with zeros. -/
  | cleared
  /-- They keep their bytes. -/
  | kept
  deriving DecidableEq, Repr

/-- A region before a value is written to it. -/
def Unsupplied.prepare (u : Unsupplied) (region : Bytes) : Bytes :=
  match u with
  | .cleared => zeros region.length
  | .kept => region

/-- Writes the content of a text or blob, and zeros up to the cap. -/
def writeContent (cap : Option Nat) (content b : Bytes) : Written :=
  let length := min (capped cap content.length) b.length
  let filled := min (cap.getD length) b.length
  ⟨content.take length ++ zeros (filled - length) ++ b.drop filled, filled⟩

mutual

/-- Writes a value to the front of a byte string. -/
def write (u : Unsupplied) : Layout → Value → Bytes → Written
  | .primitive p, v, b =>
    if p.width ≤ b.length then ⟨overlay (p.write v) b, p.width⟩ else .nothing b
  | .text cap, v, b | .blob cap, v, b => writeContent cap v.bytes b
  | .array item stride capacity, v, b =>
    let region := min (capacity * stride) b.length
    let writeItem (i : Value) (slot : Bytes) : Bytes :=
      if i.isNull then slot else (write u item i slot).bytes
    let writeAll (r : Bytes) : Bytes :=
      onSlots stride ((v.items.take (slotCount stride capacity r)).map writeItem) (u.prepare r)
    ⟨onFront region writeAll b, region⟩
  | .packed p capacity, v, b =>
    let region := min (packedLength p capacity) b.length
    let writeAll (r : Bytes) : Bytes :=
      onSlots p.width ((v.items.take (slotCount p.width capacity r)).map fun i _ => p.write i)
        (zeros r.length)
    ⟨onFront region writeAll b, region⟩
  | .vector item limit, v, b =>
    writeVector (encodedLength item) (fun i slot => write .kept item i (seed item slot))
      (admitted limit v.items) b
  | .dict key keyLength value, v, b =>
    writeDict keyLength (fun k slot => (write .cleared key (keyValue key k) slot).bytes)
      (encodedLength value) (fun i slot => write .kept value i (seed value slot)) v.fields b
  | .object fields, v, b =>
    let region := fixedRegion fields
    if b.length < region then .nothing b
    else ⟨onFront region (fun r => writeFixed fields v (u.prepare r)) b, region⟩
  | .map fields, v, b =>
    if b.length < dataStart fields then .nothing b
    else
      let region := fixedRegion fields
      let fixed := onFront region (fun r => writeFixed fields v (u.prepare r)) b
      let w := writeOptional region fields v ⟨fixed, dataStart fields⟩
      ⟨Word.store w.length w.bytes (usedLengthOffset fields), w.length⟩

/-- Seeds the region of a value with the defaults of the layout.  A region without defaults is
filled with zeros. -/
def seed : Layout → Bytes → Bytes
  | .object fields, b | .map fields, b =>
    overlay (writeDefaults fields (zeros (fixedRegion fields))) b
  | .array item stride capacity, b =>
    onSlots stride (List.replicate (slotCount stride capacity b) fun slot => seed item slot) b
  | layout, b => onFront (layout.fixedLength?.getD 0) (fun r => zeros r.length) b

/-- Writes those fields at fixed places that the record has. -/
def writeFixed : List (Field Layout) → Value → Bytes → Bytes
  | [], _, b => b
  | f :: rest, v, b =>
    let b : Bytes :=
      match f.place, v.get? f.name with
      | .fixed span, some x => span.modify (fun slot => (write .kept f.layout x slot).bytes) b
      | _, _ => b
    writeFixed rest v b

/-- Writes the optional fields of a map behind one another, and the end of each into the table at
`table`.  The given length is where the next one begins. -/
def writeOptional (table : Nat) : List (Field Layout) → Value → Written → Written
  | [], _, w => w
  | f :: rest, v, w =>
    let w : Written :=
      match f.place with
      | .fixed _ => w
      | .optional ordinal =>
        let w : Written :=
          match f.pick? v with
          | none => w
          | some x =>
            let span : Span := ⟨w.length, capped f.maxLength (encodedLength f.layout x)⟩
            if 0 < span.length ∧ span.Fits w.bytes then
              let field := write .kept f.layout x (seed f.layout (span.slice w.bytes))
              ⟨span.splice w.bytes field.bytes, w.length + field.length⟩
            else w
        ⟨Word.store w.length w.bytes (table + ordinal * Word.width), w.length⟩
    writeOptional table rest v w

/-- Writes the defaults of the fields at fixed places: the defaults inside each field first, and
over them the default of the field itself. -/
def writeDefaults : List (Field Layout) → Bytes → Bytes
  | [], b => b
  | f :: rest, b =>
    let writeDefault (slot : Bytes) : Bytes :=
      match f.default with
      | none => seed f.layout slot
      | some x => (write .kept f.layout x (seed f.layout slot)).bytes
    let b : Bytes :=
      match f.place with
      | .fixed span => span.modify writeDefault b
      | .optional _ => b
    writeDefaults rest b

end

/-- Writes a value, with zeros for what it does not supply. -/
def encode (layout : Layout) (v : Value) (b : Bytes) : Written := write .cleared layout v b

/-- Writes a value, keeping the bytes of what it does not supply. -/
def amend (layout : Layout) (v : Value) (b : Bytes) : Written := write .kept layout v b

/-- Writes a value over the defaults of the layout. -/
def encodeOver (layout : Layout) (v : Value) (b : Bytes) : Written := amend layout v (seed layout b)

/-- The defaults of a record: its bytes at fixed places when nothing is supplied. -/
def template (fields : List (Field Layout)) : Bytes :=
  writeDefaults fields (zeros (fixedRegion fields))

/-- The number of bytes that a new byte string for a value has. -/
def freshLength (layout : Layout) (v : Value) : Nat :=
  layout.fixedLength?.getD (encodedLength layout v)

/-- The encoding of a value by itself. -/
def toBytes (layout : Layout) (v : Value) : Bytes :=
  (encodeOver layout v (zeros (freshLength layout v))).value

end Layout

end BinarySchema
