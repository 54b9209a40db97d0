/-!
# Identifiers

Plans, steps and split groups are named by identifiers. A caller names things by numbers;
the library names what it creates (new steps of a split, new groups) by fresh identifiers,
numbered in the order they are made. Sets of identifiers are ordered with the caller's
numbers first, by value, and fresh ones after them, by their number.
-/

namespace Fabrication

/-- An identifier given by the caller (`given n`, written as the 128-bit number `n`) or made
by the library (`fresh k`, the `k`-th one made). -/
inductive Ident where
  | given (n : Nat)
  | fresh (k : Nat)
  deriving DecidableEq, Repr, Inhabited

namespace Ident

/-- Identifiers in order: given ones first, each kind by its number. -/
def lt : Ident → Ident → Bool
  | given x, given y => x < y
  | given _, fresh _ => true
  | fresh _, given _ => false
  | fresh x, fresh y => x < y

def hex32 (n : Nat) : String :=
  let ds := Nat.toDigits 16 (n % Nat.pow 2 128)
  String.ofList (List.replicate (32 - ds.length) '0' ++ ds)

/-- The hyphenated text of a 128-bit identifier number: groups of 8, 4, 4, 4 and 12 digits. -/
def uuidText (n : Nat) : String :=
  let h := (hex32 n).toList
  let part (a b : Nat) := String.ofList ((h.drop a).take b)
  part 0 8 ++ "-" ++ part 8 4 ++ "-" ++ part 12 4 ++ "-" ++ part 16 4 ++ "-" ++ part 20 12

/-- Insert into a list sorted by `lt`, keeping it free of repeats. -/
def insertSorted (x : Ident) : List Ident → List Ident
  | [] => [x]
  | y :: ys =>
    if x = y then y :: ys
    else if lt x y then x :: y :: ys
    else y :: insertSorted x ys

def sortedSet (xs : List Ident) : List Ident := xs.foldl (fun acc x => insertSorted x acc) []

end Ident

/-- A supply of fresh identifiers: the number of the next one. -/
structure IdSupply where
  next : Nat := 0
  deriving DecidableEq, Repr, Inhabited

namespace IdSupply

def take (s : IdSupply) : Ident × IdSupply := (.fresh s.next, ⟨s.next + 1⟩)

end IdSupply

end Fabrication
