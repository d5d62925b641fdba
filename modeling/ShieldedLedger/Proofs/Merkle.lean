import ShieldedLedger.Block

/-!
# Branches lead to the root

A branch is read off the levels of a tree one after the other, and folding a leaf up the branch
combines it on each level with the sibling that it is paired with there. So the fold meets the
leaf's ancestors (`Merkle.getElem?_pairUp`), and the last one is the root
(`Merkle.root?_eq_fold_branch`), whatever the rule that combines two nodes. For a block this makes
every leaf's branch lead to the Merkle root (`Block.merkleBranch_leads_to_root`).

The levels may also be kept in one list, one after the other (`Merkle.nodes`). Then the root is the
last node (`Merkle.getLast?_nodes`), and a branch is read off the list at places that move on by the
size of a level each time (`Merkle.siblingsFrom_nodes`).
-/

namespace ShieldedLedger
namespace Merkle

variable {α : Type} (combine : α → α → α)

/-- A node that is paired with its sibling; one without a sibling is paired with itself. -/
def parentOf (level : List α) (index : Nat) (node : α) : α :=
  let other := level.getD (min (sibling index) (level.length - 1)) node
  if index % 2 = 1 then combine other node else combine node other

/-- The level above holds, at half the position, the node paired with its sibling. -/
theorem getElem?_pairUp (level : List α) {index : Nat} {node : α} (h : level[index]? = some node) :
    (pairUp combine level)[index / 2]? = some (parentOf combine level index node) := by
  fun_induction pairUp combine level generalizing index with
  | case1 => cases h
  | case2 a =>
    obtain ⟨hlt, rfl⟩ := List.getElem?_eq_some_iff.1 h
    obtain rfl : index = 0 := by simpa using hlt
    rfl
  | case3 a b rest ih =>
    rcases index with _ | _ | index
    · obtain rfl := Option.some.inj h
      rfl
    · obtain rfl := Option.some.inj h
      rfl
    · have above := ih h
      obtain ⟨hlt, -⟩ := List.getElem?_eq_some_iff.1 h
      have half : (index + 2) / 2 = index / 2 + 1 := by omega
      rw [half, List.getElem?_cons_succ, above]
      -- the sibling is found two places further on, as the node is
      have shifted : min (sibling (index + 2)) ((a :: b :: rest).length - 1) =
          min (sibling index) (rest.length - 1) + 2 := by
        have : index < rest.length := by simpa using hlt
        simp only [sibling, List.length_cons, Nat.add_mod_right]
        split <;> omega
      show _ = some (parentOf combine (a :: b :: rest) (index + 2) node)
      unfold parentOf
      dsimp only
      rw [shifted, Nat.add_mod_right]
      rfl

/-- What stands for the sibling of a node is on its level. -/
theorem sibling_lt {level : List α} (hne : level ≠ []) (index : Nat) :
    min (sibling index) (level.length - 1) < level.length := by
  have := List.length_pos_iff.2 hne
  omega

/-- Folding a leaf up its branch gives the root. -/
theorem root?_eq_fold_branch (leaves : List α) {index : Nat} {leaf : α}
    (h : leaves[index]? = some leaf) :
    root? combine leaves = some (fold combine leaf (branch combine leaves index) index) := by
  fun_induction branch combine leaves index generalizing leaf with
  | case1 => cases h
  | case2 a index =>
    obtain ⟨hlt, rfl⟩ := List.getElem?_eq_some_iff.1 h
    simp [root?, fold]
  | case3 a b rest index level =>
    rename_i ih
    have up := ih (getElem?_pairUp combine level h)
    have inside : min (sibling index) (level.length - 1) < level.length :=
      sibling_lt (List.cons_ne_nil _ _) index
    -- the sibling is there, so it does not matter what would stand in for it
    have same : level.getD (min (sibling index) (level.length - 1)) a =
        level.getD (min (sibling index) (level.length - 1)) leaf := by
      simp only [List.getD, List.getElem?_eq_getElem inside, Option.getD_some]
    rw [root?, up, fold, same]
    rfl

/-! ## All nodes in one list -/

/-- The nodes of the tree over the leaves, level by level, the leaves first. -/
def nodes : (leaves : List α) → List α
  | [] => []
  | [a] => [a]
  | a :: b :: rest => a :: b :: rest ++ nodes (pairUp combine (a :: b :: rest))
termination_by leaves => leaves.length
decreasing_by simp only [length_pairUp, List.length_cons]; omega

/-- What stands for the siblings of the node at `index` and of its ancestors, read off a list of
nodes in which the level of `index` has `size` nodes and starts at `offset`. -/
def siblingsFrom (nodes : List α) (offset size index : Nat) : List (Option α) :=
  if size ≤ 1 then []
  else nodes[offset + min (sibling index) (size - 1)]? ::
    siblingsFrom nodes (offset + size) ((size + 1) / 2) (index / 2)
termination_by size

/-- The last node is the root. -/
theorem getLast?_nodes (leaves : List α) :
    (nodes combine leaves).getLast? = root? combine leaves := by
  fun_induction nodes combine leaves with
  | case1 => simp [root?]
  | case2 a => simp [root?]
  | case3 a b rest ih =>
    -- the level above is not empty, so the levels from there on have a last node
    have first : (pairUp combine (a :: b :: rest))[0]? = some (combine a b) := rfl
    rw [root?, List.getLast?_append, ih, root?_eq_fold_branch combine _ first, Option.some_or]

/-- The branch of a leaf is read off the nodes of the tree, wherever in a list they start. -/
theorem siblingsFrom_nodes (before leaves : List α) (index : Nat) :
    siblingsFrom (before ++ nodes combine leaves) before.length leaves.length index =
      (branch combine leaves index).map some := by
  fun_induction branch combine leaves index generalizing before with
  | case1 => simp [siblingsFrom]
  | case2 => simp [siblingsFrom]
  | case3 a b rest index level ih =>
    have inside : min (sibling index) (level.length - 1) < level.length :=
      sibling_lt (List.cons_ne_nil _ _) index
    have many : ¬ level.length ≤ 1 := by
      simp only [level, List.length_cons]
      omega
    have above := ih (before ++ level)
    rw [length_pairUp, List.length_append, List.append_assoc] at above
    have read : (before ++ (level ++ nodes combine (pairUp combine level)))[before.length +
        min (sibling index) (level.length - 1)]? =
          some (level.getD (min (sibling index) (level.length - 1)) a) := by
      rw [List.getElem?_append_right (Nat.le_add_right _ _), Nat.add_sub_cancel_left,
        List.getElem?_append_left inside, List.getD_eq_getElem?_getD,
        List.getElem?_eq_getElem inside, Option.getD_some]
    rw [siblingsFrom, if_neg many, nodes, above, read]
    rfl

end Merkle

/-- A leaf at any position of a block, folded up the branch of that position, gives the Merkle root.
So it does with any other rule to combine two nodes: the root is the last node of the tree, and the
branch is what is read off the tree level by level. -/
theorem Block.merkleBranch_leads_to_root (b : Block) {index : Nat}
    (h : index < b.transactions.length + b.certificates.length) :
    ∃ leaf, b.leafHashes[index]? = some leaf ∧
      checkMerkleBranch leaf (b.merkleBranch index) index = b.merkleRoot ∧
      ∀ combine : Hash256 → Hash256 → Hash256,
        let tree := Merkle.nodes combine b.leafHashes
        let branch := Merkle.branch combine b.leafHashes index
        Merkle.root? combine b.leafHashes = some (Merkle.fold combine leaf branch index) ∧
          tree.getLast? = some (Merkle.fold combine leaf branch index) ∧
          Merkle.siblingsFrom tree 0 (b.transactions.length + b.certificates.length) index =
            branch.map some := by
  have leaves : b.leafHashes.length = b.transactions.length + b.certificates.length := by
    simp [leafHashes]
  have leaf := List.getElem?_eq_getElem (leaves ▸ h)
  have root (combine : Hash256 → Hash256 → Hash256) :=
    Merkle.root?_eq_fold_branch combine b.leafHashes leaf
  refine ⟨_, leaf, ?_, fun combine => ⟨root combine, ?_, ?_⟩⟩
  · rw [merkleRoot, root hashPair, Option.getD_some]
    rfl
  · rw [Merkle.getLast?_nodes, root]
  · rw [← leaves]
    exact Merkle.siblingsFrom_nodes combine [] b.leafHashes index

/-- A block of two transactions and a certificate. -/
def Block.ofThree : Block where
  hash := Bytes.zero
  time := 0
  transactions := [TxBody.blank.freeze, TxBody.blank.freeze]
  certificates := [CertBody.blank.freeze]

/-- Its certificate is paired with itself, and its branch leads to the root. -/
theorem Block.merkleBranch_leads_to_root_ofThree :
    2 < ofThree.transactions.length + ofThree.certificates.length ∧
      checkMerkleBranch CertBody.blank.freeze.hash (ofThree.merkleBranch 2) 2 =
        ofThree.merkleRoot := by
  have inside : 2 < ofThree.transactions.length + ofThree.certificates.length := by decide
  obtain ⟨_, hleaf, hroot, -⟩ := ofThree.merkleBranch_leads_to_root inside
  obtain rfl := Option.some.inj hleaf
  exact ⟨inside, hroot⟩

end ShieldedLedger
