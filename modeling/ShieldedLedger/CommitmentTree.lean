import ShieldedLedger.Hash.Sha256

/-!
# The note commitment tree

An append-only tree of fixed depth of which only the rightmost path is kept: the last one or two
leaves, and for every level above them the left sibling on the path, if there is one. Appending
carries completed subtrees upwards like a binary counter (`carry`); the root fills the absent part
of the tree with empty subtrees, or with subtrees handed in by the caller (`rootWith`).

Everything is stated for an arbitrary rule to combine nodes (`NodeHash`); the chain's own rule is
`sproutHash`.
-/

namespace ShieldedLedger

/-- How the nodes of a tree come about: what stands for a leaf that is not there, and the parent of
two nodes. -/
structure NodeHash (α : Type) where
  emptyLeaf : α
  combine : α → α → α

/-- The chain's rule: an absent leaf is zero, and a parent is one bare compression of its
children. -/
def sproutHash : NodeHash Hash256 := ⟨Bytes.zero, compressPair⟩

/-- The depth of the note commitment tree. -/
def treeDepth : Nat := 29

/-- The rightmost path of an append-only tree: the last pair of leaves and, for each level above
them, the completed subtree to the left of the path. -/
structure CommitmentTree (α : Type) where
  left : Option α
  right : Option α
  parents : List (Option α)
deriving DecidableEq

namespace CommitmentTree

variable {α : Type}

/-- The tree without leaves. -/
def empty : CommitmentTree α := ⟨none, none, []⟩

instance : Inhabited (CommitmentTree α) := ⟨empty⟩

/-- The number of leaves that the completed subtrees hold, the lowest of them of `weight`
leaves. -/
def parentLeaves (weight : Nat) : List (Option α) → Nat
  | [] => 0
  | none :: rest => parentLeaves (2 * weight) rest
  | some _ :: rest => weight + parentLeaves (2 * weight) rest

/-- The number of leaves; a right leaf without a left one makes it meaningless. -/
def size? (t : CommitmentTree α) : Option Nat :=
  match t.left, t.right with
  | none, some _ => none
  | none, none => some (parentLeaves 2 t.parents)
  | some _, none => some (1 + parentLeaves 2 t.parents)
  | some _, some _ => some (2 + parentLeaves 2 t.parents)

/-- The parents of the tree as one of `depth` levels: those above do not count, and those that are
not stored are absent. -/
def parentsWithin (t : CommitmentTree α) (depth : Nat) : List (Option α) :=
  (t.parents ++ List.replicate (depth - 1) none).take (depth - 1)

/-- True if the tree, as one of `depth` levels, has all its leaves. -/
def isComplete (t : CommitmentTree α) (depth : Nat) : Bool :=
  if depth = 0 then t.left.isSome && t.right.isNone && t.parents.isEmpty
  else t.left.isSome && t.right.isSome && (t.parentsWithin depth).all Option.isSome

/-- Adds a completed subtree to the levels above it: it is combined with what waits there, level by
level, up to the first level where nothing does. -/
def carry (h : NodeHash α) : (node : α) → (parents : List (Option α)) → List (Option α)
  | node, [] => [some node]
  | node, none :: rest => some node :: rest
  | node, some waiting :: rest => none :: carry h (h.combine waiting node) rest

/-- Appends a leaf; a complete tree takes none. -/
def append? (h : NodeHash α) (t : CommitmentTree α) (leaf : α) : Option (CommitmentTree α) :=
  if t.isComplete treeDepth then none
  else
    match t.left, t.right with
    | none, _ => some { t with left := some leaf }
    | some _, none => some { t with right := some leaf }
    | some l, some r => some ⟨some leaf, none, carry h (h.combine l r) t.parents⟩

/-- Climbs from `node` through the levels above it. Where no subtree waits on the left, the right
sibling is the next one of `fillers`, or else the empty subtree of that level, the first of which is
`emptyNode`. -/
def climb (h : NodeHash α) :
    (emptyNode node : α) → (parents : List (Option α)) → (fillers : List α) → α
  | _, node, [], _ => node
  | emptyNode, node, some waiting :: rest, fillers =>
    climb h (h.combine emptyNode emptyNode) (h.combine waiting node) rest fillers
  | emptyNode, node, none :: rest, [] =>
    climb h (h.combine emptyNode emptyNode) (h.combine node emptyNode) rest []
  | emptyNode, node, none :: rest, filler :: fillers =>
    climb h (h.combine emptyNode emptyNode) (h.combine node filler) rest fillers

/-- A leaf if it is there, else the next filler, else an absent leaf; and the fillers left. -/
def leafOr (h : NodeHash α) : (leaf : Option α) → (fillers : List α) → α × List α
  | some leaf, fillers => (leaf, fillers)
  | none, [] => (h.emptyLeaf, [])
  | none, filler :: fillers => (filler, fillers)

/-- The root of the tree as one of `depth` levels, the absent part filled from `fillers` and with
empty subtrees after that. -/
def rootWith (h : NodeHash α) (t : CommitmentTree α) (depth : Nat) (fillers : List α) : α :=
  let (l, fillers) := leafOr h t.left fillers
  let (r, fillers) := leafOr h t.right fillers
  climb h (h.combine h.emptyLeaf h.emptyLeaf) (h.combine l r) (t.parentsWithin depth) fillers

/-- The root of the tree. -/
def root (h : NodeHash α) (t : CommitmentTree α) : α := t.rootWith h treeDepth []

/-- Appends the leaves in order, up to the first that finds the tree complete: the tree so far, and
whether all were taken. -/
def appendAll (h : NodeHash α) : CommitmentTree α → List α → CommitmentTree α × Bool
  | t, [] => (t, true)
  | t, leaf :: rest =>
    match t.append? h leaf with
    | none => (t, false)
    | some t => appendAll h t rest

end CommitmentTree

/-- The chain's commitment tree. -/
abbrev NoteTree := CommitmentTree Hash256

end ShieldedLedger
