import Fabrication.Facility
import Fabrication.Fault

/-!
# Production trees

Expanding a target through its recipe gives a tree. A node is one use of a recipe for one
material: how much is needed, in how many runs, at which depth, with which efficiencies and
facility bonus. Its requirements are the recipe's inputs in order, each with the base amount
per run, the amount after efficiency and bonus, and where it comes from: bought raw, left
out by the user, or made by a child node that belongs to this requirement alone.

The views of a tree are its nodes in preorder (a node before the subtrees of its
requirements, requirements in order), its direct children, its depth and its leaves: the
amounts of the raw and excluded materials, added up per material.
-/

namespace Fabrication

/-- Where a required material comes from; `α` is the type of the child node. -/
inductive Supply (α : Type) where
  | raw
  | excluded
  | made (node : α)
  deriving Repr, Inhabited

/-- One input of a node: the material, its amount per run, its amount for all runs, and
where it comes from. -/
structure Requirement (α : Type) where
  material : Nat
  base : Nat
  quantity : Nat
  source : Supply α
  deriving Repr, Inhabited

namespace Requirement

def isLeaf {α : Type} (r : Requirement α) : Bool :=
  match r.source with
  | .made _ => false
  | _ => true

end Requirement

/-- What one expansion of a recipe decides: the material and its recipe, the amount and
runs, units per run, depth (the root is at depth zero), efficiencies in percent, the
facility bonus and whether no facility could be found. -/
structure Expansion where
  material : Nat
  recipe : Nat
  activity : Activity
  quantity : Nat
  runs : Nat
  out : Nat
  depth : Nat
  me : Nat
  te : Nat
  bonus : Bonus
  bonusMissing : Bool
  deriving Repr, Inhabited

/-- A production tree: an expansion and its requirements. -/
inductive Node where
  | mk (head : Expansion) (reqs : List (Requirement Node))
  deriving Repr, Inhabited

namespace Node

def head : Node → Expansion
  | mk h _ => h

def reqs : Node → List (Requirement Node)
  | mk _ rs => rs

/-- The nodes that make the root's requirements. -/
def children (n : Node) : List Node :=
  n.reqs.filterMap fun r =>
    match r.source with
    | .made c => some c
    | _ => none

mutual

def nodes : Node → List Node
  | mk h rs => mk h rs :: nodesOf rs

def nodesOf : List (Requirement Node) → List Node
  | [] => []
  | ⟨_, _, _, .made c⟩ :: rs => nodes c ++ nodesOf rs
  | _ :: rs => nodesOf rs

end

def nodeCount (n : Node) : Nat := n.nodes.length

def maxDepth (n : Node) : Nat := n.nodes.foldl (fun d x => Nat.max d x.head.depth) 0

/-- Add an amount to the total of a material in a table sorted by material. -/
def addTo (m q : Nat) : List (Nat × Nat) → Except Fault (List (Nat × Nat))
  | [] => .ok [(m, q)]
  | (k, v) :: rest =>
    if k == m then do
      let s ← Count.add? v q
      pure ((k, s) :: rest)
    else if m < k then .ok ((m, q) :: (k, v) :: rest)
    else do
      let rest' ← addTo m q rest
      pure ((k, v) :: rest')

/-- The amounts of raw and excluded materials of the whole tree, per material and ascending.
The totals are counts and may overflow. -/
def leaves (n : Node) : Except Fault (List (Nat × Nat)) :=
  n.nodes.foldlM (fun acc x =>
    (x.reqs.filter (·.isLeaf)).foldlM (fun acc r => addTo r.material r.quantity acc) acc) []

end Node

end Fabrication
