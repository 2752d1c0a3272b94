/-
# Decoding

Decoding never fails.  What is cut off reads as zero, as a hole, or as not there at all, and bytes
that are no text read as replacement characters.
-/
import BinarySchema.Layout.Key
import BinarySchema.Layout.Span

namespace BinarySchema

namespace Layout

/-- The text that bytes hold, up to the first zero byte, where filling up begins. -/
def contentText (b : Bytes) : String := Text.ofUtf8 (b.takeWhile fun byte => byte != 0)

/-- The content of a blob: all bytes, as far as the cap admits them. -/
def contentBytes (cap : Option Nat) (b : Bytes) : Bytes := b.take (cap.getD b.length)

mutual

/-- The value at the front of a byte string. -/
def decode : Layout → Bytes → Value
  | .primitive p, b => p.read b
  | .text _, b => .text (contentText b)
  | .blob cap, b => .blob (contentBytes cap b)
  | .array item stride capacity, b =>
    .list <| (List.range (slotCount stride capacity b)).filterMap fun i =>
      (slotSpan? stride capacity b i).map fun span => decode item (span.slice b)
  | .packed p capacity, b =>
    .list <| (List.range (slotCount p.width capacity b)).map fun i =>
      p.read (b.drop (packedOffset p i))
  | .vector item _, b =>
    .list <| (List.range (storedCount b)).map fun i =>
      match vectorSpan? b i with
      | none => .null
      | some span => decode item (span.slice b)
  | .dict key keyLength value, b =>
    let entry (i : Nat) : String × Value :=
      let name := keyText key (decode key ((keySpan keyLength b i).slice b))
      match vectorSpan? b i with
      | none => (name, .null)
      | some span => (name, decode value (span.slice b))
    .record <| ((List.range (keyCount keyLength b)).map entry).foldl
      (fun fields e => Value.insertNewField e.1 e.2 fields) []
  | .object fields, b => .record (decodeFixed fields b [])
  | .map fields, b =>
    .record <| decodeOptional (fixedRegion fields) (dataStart fields) fields b
      (decodeFixed fields b [])

/-- Adds the fields at fixed places.  One that is cut off is null. -/
def decodeFixed : List (Field Layout) → Bytes → List (String × Value) → List (String × Value)
  | [], _, out => out
  | f :: rest, b, out =>
    let out : List (String × Value) :=
      match f.place with
      | .optional _ => out
      | .fixed span =>
        match span.slice? b with
        | none => Value.insertField f.name .null out
        | some slot => Value.insertField f.name (decode f.layout slot) out
    decodeFixed rest b out

/-- Adds the optional fields of a map that are present. -/
def decodeOptional (table data : Nat) :
    List (Field Layout) → Bytes → List (String × Value) → List (String × Value)
  | [], _, out => out
  | f :: rest, b, out =>
    let out : List (String × Value) :=
      match f.place with
      | .fixed _ => out
      | .optional ordinal =>
        match optionalSpan? table data b ordinal with
        | none => out
        | some span => Value.insertField f.name (decode f.layout (span.slice b)) out
    decodeOptional table data rest b out

end

end Layout

end BinarySchema
