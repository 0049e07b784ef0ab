/-!
# Tables

A table gives each key one value and keeps its keys in the order in which they came.  Giving a known
key a new value keeps its place.
-/

namespace AdventureKit

/-- Keys with their values, in order. -/
abbrev Table (κ α : Type) := List (κ × α)

namespace Table

variable {κ α : Type} [BEq κ]

/-- The value of a key. -/
def get? (t : Table κ α) (key : κ) : Option α :=
  t.lookup key

/-- Whether the table has a key. -/
def has (t : Table κ α) (key : κ) : Bool :=
  t.any fun item => item.1 == key

/-- The keys in order. -/
def keys (t : Table κ α) : List κ :=
  t.map Prod.fst

/-- Gives a key a value. -/
def put (t : Table κ α) (key : κ) (value : α) : Table κ α :=
  if has t key then t.map fun item => if item.1 == key then (key, value) else item
  else t ++ [(key, value)]

/-- Takes a key out. -/
def erase (t : Table κ α) (key : κ) : Table κ α :=
  t.filter fun item => !(item.1 == key)

/-- The table of items in which later values of a key count. -/
def ofItems (items : List (κ × α)) : Table κ α :=
  items.foldl (fun t item => put t item.1 item.2) []

end Table

end AdventureKit
