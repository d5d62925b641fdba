import ShieldedLedger.CommitmentTree

/-!
# Witnesses of leaves

A witness proves that a leaf is in the tree, and is kept current as the tree grows. It is the tree
as it was when the leaf was appended, the subtrees completed since to the right of the leaf's path
(`filled`), and the subtree that is being filled (`cursor`). The height of the subtree being filled
follows from the other two (`nextDepth`). Filling the tree's absent part from these gives the root
of the grown tree (`Witness.root`).
-/

namespace ShieldedLedger

/-- A witness of the last leaf of `tree`, brought up to date with later leaves: the subtrees
completed since, lowest first, and the one being filled. -/
structure Witness (α : Type) where
  tree : CommitmentTree α
  filled : List α
  cursor : Option (CommitmentTree α)
deriving DecidableEq

namespace Witness

variable {α : Type}

/-- A witness of the last leaf of `t`. -/
def ofTree (t : CommitmentTree α) : Witness α := ⟨t, [], none⟩

/-- The position of the witnessed leaf, if the tree has one. -/
def position? (w : Witness α) : Option Nat :=
  if w.tree.left.isNone then none else w.tree.size?.map (· - 1)

/-- The places on a path where a subtree may stand, lowest first: the height of the subtree, and
whether it is there. Both leaves are places of height zero. -/
def places (t : CommitmentTree α) : List (Nat × Bool) :=
  (0, t.left.isSome) :: (0, t.right.isSome) ::
    t.parents.zipIdx.map fun (parent, level) => (level + 1, parent.isSome)

/-- The height of the first place without a subtree once `skip` such places have been passed over,
the places after the listed ones having heights `beyond`, `beyond + 1`, … -/
def openHeight (beyond : Nat) : (skip : Nat) → (places : List (Nat × Bool)) → Nat
  | skip, [] => beyond + skip
  | skip, (_, true) :: rest => openHeight beyond skip rest
  | 0, (height, false) :: _ => height
  | skip + 1, (_, false) :: rest => openHeight beyond skip rest

/-- The height of the subtree that the next leaf belongs to. -/
def nextDepth (w : Witness α) : Nat :=
  openHeight (w.tree.parents.length + 1) w.filled.length (places w.tree)

/-- Takes note of the next leaf of the tree; a full tree has none. -/
def append? (h : NodeHash α) (w : Witness α) (leaf : α) : Option (Witness α) :=
  match w.cursor with
  | some cursor =>
    (cursor.append? h leaf).map fun cursor =>
      if cursor.isComplete w.nextDepth then
        { w with filled := w.filled ++ [cursor.rootWith h w.nextDepth []], cursor := none }
      else { w with cursor := some cursor }
  | none =>
    if w.nextDepth ≥ treeDepth then none
    else if w.nextDepth = 0 then some { w with filled := w.filled ++ [leaf] }
    else some { w with cursor := some ⟨some leaf, none, []⟩ }

/-- What fills the absent part of the tree: the completed subtrees, then the one being filled. -/
def fillers (h : NodeHash α) (w : Witness α) : List α :=
  w.filled ++ (w.cursor.map fun cursor => cursor.rootWith h w.nextDepth []).toList

/-- The root of the tree with all leaves so far. -/
def root (h : NodeHash α) (w : Witness α) : α := w.tree.rootWith h treeDepth (w.fillers h)

end Witness

/-- A witness in the chain's commitment tree. -/
abbrev NoteWitness := Witness Hash256

/-- Appends a leaf to the tree and witnesses it. -/
def CommitmentTree.appendWitnessed? {α : Type} (h : NodeHash α) (t : CommitmentTree α) (leaf : α) :
    Option (CommitmentTree α × Witness α) :=
  (t.append? h leaf).map fun t => (t, Witness.ofTree t)

/-- Appends a leaf to the tree and to witnesses of earlier leaves. Those that are full stay as they
are; answers also how many they are. -/
def CommitmentTree.appendTracked {α : Type} (h : NodeHash α) (t : CommitmentTree α)
    (witnesses : List (Witness α)) (leaf : α) : CommitmentTree α × List (Witness α) × Nat :=
  let grown := witnesses.map fun w => (w, w.append? h leaf)
  let t' := t.append? h leaf
  (t'.getD t, grown.map fun (w, w') => w'.getD w,
    grown.countP (·.2.isNone) + if t'.isNone then 1 else 0)

end ShieldedLedger
