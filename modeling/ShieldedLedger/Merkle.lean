/-!
# Merkle trees

A Merkle tree over a list of leaves, for any rule that combines two nodes. Nodes are paired level
by level, the last node of an odd level with itself (`pairUp`), until one is left (`root?`). The
siblings met on the way from a leaf to the root are its branch (`branch`), and folding a leaf up a
branch gives the root the branch implies (`fold`).
-/

namespace ShieldedLedger
namespace Merkle

variable {α : Type} (combine : α → α → α)

/-- The level above `nodes`. -/
def pairUp : (nodes : List α) → List α
  | [] => []
  | [a] => [combine a a]
  | a :: b :: rest => combine a b :: pairUp rest

/-- Pairing up leaves half of the nodes, rounded up, as an odd one out is paired with itself. -/
theorem length_pairUp (nodes : List α) :
    (pairUp combine nodes).length = (nodes.length + 1) / 2 := by
  fun_induction pairUp combine nodes with
  | case1 => simp
  | case2 => simp
  | case3 a b rest ih => simp only [List.length_cons, ih]; omega

/-- The root over the leaves; an empty tree has none. -/
def root? : (leaves : List α) → Option α
  | [] => none
  | [a] => some a
  | a :: b :: rest => root? (pairUp combine (a :: b :: rest))
termination_by leaves => leaves.length
decreasing_by simp only [length_pairUp, List.length_cons]; omega

/-- The position next to `index` that shares its parent. -/
def sibling (index : Nat) : Nat := if index % 2 = 0 then index + 1 else index - 1

/-- The siblings on the way from the leaf at `index` to the root, lowest first. Where a node has no
sibling, the last node of the level stands in. -/
def branch : (leaves : List α) → (index : Nat) → List α
  | [], _ => []
  | [_], _ => []
  | a :: b :: rest, index =>
    let level := a :: b :: rest
    level.getD (min (sibling index) (level.length - 1)) a ::
      branch (pairUp combine level) (index / 2)
termination_by leaves => leaves.length
decreasing_by simp only [length_pairUp, List.length_cons]; omega

/-- The root that a leaf at `index` and a branch imply. -/
def fold : (node : α) → (branch : List α) → (index : Nat) → α
  | node, [], _ => node
  | node, s :: rest, index =>
    fold (if index % 2 = 1 then combine s node else combine node s) rest (index / 2)

end Merkle
end ShieldedLedger
