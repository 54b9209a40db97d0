import Fabrication.Sort

/-!
# Keyed tables

Small tables kept as lists of pairs. Reading a key finds its last entry, so that appending
an entry replaces the value of its key; `putEntry` replaces in place instead, keeping the
order in which keys first came.
-/

namespace Fabrication

/-- The value of the last entry for a key. -/
def lastValue? {α : Type} (entries : List (Nat × α)) (key : Nat) : Option α :=
  (entries.reverse.find? (·.1 == key)).map (·.2)

/-- Put a value for a key into a table, replacing the value of that key. -/
def putEntry {κ α : Type} [BEq κ] (k : κ) (v : α) (entries : List (κ × α)) : List (κ × α) :=
  if entries.any (·.1 == k) then entries.map fun e => if e.1 == k then (k, v) else e
  else entries ++ [(k, v)]

def ascendingSet (xs : List Nat) : List Nat :=
  sortBy (· ≤ ·) (xs.foldl (fun acc x => if acc.contains x then acc else acc ++ [x]) [])

end Fabrication
