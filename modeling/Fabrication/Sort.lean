/-!
# Stable sorting

Lists are sorted by a Boolean order `le`, read as "may come before", with insertion sort:
each element goes after the elements already placed that may come before it, so that equal
elements keep their order. For a total preorder this is the one stable sort of the list.
The recursion is structural, so sorted lists of fixed inputs evaluate by `decide`.
-/

namespace Fabrication

/-- Insert `x` into a list sorted by `le`, after every element that may come before it. -/
def orderedInsert {α : Type} (le : α → α → Bool) (x : α) : List α → List α
  | [] => [x]
  | y :: ys => if le y x then y :: orderedInsert le x ys else x :: y :: ys

/-- The stable sort of a list by `le`. -/
def sortBy {α : Type} (le : α → α → Bool) (xs : List α) : List α :=
  xs.foldl (fun acc x => orderedInsert le x acc) []

end Fabrication
