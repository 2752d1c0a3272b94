/-
# Tables that keep the order of arrival

A table is a list of pairs of a key and a value.  `Table.insert` puts a new key at the end and
gives a key that is already there its new value in place, so that a table that is built by
`insert` has every key once, at the place where it first arrived, with the value it got last.
-/

namespace BinarySchema

/-- A finite table from keys to values, in the order in which the keys first arrived. -/
abbrev Table (κ α : Type) := List (κ × α)

namespace Table

variable {κ α : Type} [BEq κ]

/-- The value under a key. -/
def find? (t : Table κ α) (k : κ) : Option α := List.lookup k t

/-- Whether the table has a key. -/
def hasKey (t : Table κ α) (k : κ) : Bool := t.any (·.1 == k)

/-- Gives a key a value: in place if the table has the key, else at the end. -/
def insert (t : Table κ α) (k : κ) (v : α) : Table κ α :=
  match t with
  | [] => [(k, v)]
  | (k', v') :: rest => if k' == k then (k', v) :: rest else (k', v') :: insert rest k v

/-- The keys, in order of arrival. -/
def keys (t : Table κ α) : List κ := t.map (·.1)

/-- The table with the given entries, later ones winning. -/
def ofList (entries : List (κ × α)) : Table κ α :=
  entries.foldl (fun t e => insert t e.1 e.2) []

end Table

end BinarySchema
