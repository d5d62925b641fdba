import ShieldedLedger.CommitmentTree.Encoding

/-!
# Witnesses that keep the height they are filling

The height of the subtree being filled follows from what a witness has of the tree. A witness may
also keep it (`DepthWitness`) and find it out only when a new subtree is begun. Such a witness says
the right height whenever a subtree is being filled (`DepthWitness.Kept`): it does at the start and
when it is put together from its parts, and every append keeps it so (`DepthWitness.Kept.append`).
So whatever leaves come, it takes the same ones, has the same parts and the same root as one that
finds the height out anew each time (`DepthWitness.Kept.appendEach`, `DepthWitness.Kept.root`).
-/

namespace ShieldedLedger

variable {α : Type}

/-- Takes note of leaves one after the other, as many as find room: for each whether it was taken,
and the witness then. -/
def Witness.appendEach (h : NodeHash α) : Witness α → List α → List Bool × Witness α
  | w, [] => ([], w)
  | w, leaf :: rest =>
    let grown := w.append? h leaf
    let (taken, w) := appendEach h (grown.getD w) rest
    (grown.isSome :: taken, w)

/-- A witness that keeps the height of the subtree it has begun last. -/
structure DepthWitness (α : Type) extends Witness α where
  depth : Nat

namespace DepthWitness

/-- A witness of the last leaf of `t`. -/
def ofTree (t : CommitmentTree α) : DepthWitness α := ⟨Witness.ofTree t, 0⟩

/-- A witness with the given parts, and the height that follows from them. -/
def ofParts (tree : CommitmentTree α) (filled : List α) (cursor : Option (CommitmentTree α)) :
    DepthWitness α :=
  let w : Witness α := ⟨tree, filled, cursor⟩
  ⟨w, w.nextDepth⟩

/-- Takes note of the next leaf of the tree, if there is room for it. Only where no subtree is being
filled is the height found out anew. -/
def append (h : NodeHash α) (w : DepthWitness α) (leaf : α) : Bool × DepthWitness α :=
  match w.cursor with
  | some cursor =>
    match cursor.append? h leaf with
    | none => (false, w)
    | some cursor =>
      if cursor.isComplete w.depth then
        (true, { w with filled := w.filled ++ [cursor.rootWith h w.depth []], cursor := none })
      else (true, { w with cursor := some cursor })
  | none =>
    let depth := w.nextDepth
    if depth ≥ treeDepth then (false, { w with depth })
    else if depth = 0 then (true, { w with filled := w.filled ++ [leaf], depth })
    else (true, { w with cursor := some ⟨some leaf, none, []⟩, depth })

/-- Takes note of leaves one after the other: for each whether it was taken, and the witness
then. -/
def appendEach (h : NodeHash α) : DepthWitness α → List α → List Bool × DepthWitness α
  | w, [] => ([], w)
  | w, leaf :: rest =>
    let (first, w) := w.append h leaf
    let (taken, w) := appendEach h w rest
    (first :: taken, w)

/-- The root of the tree with all leaves so far. -/
def root (h : NodeHash α) (w : DepthWitness α) : α :=
  w.tree.rootWith h treeDepth
    (w.filled ++ (w.cursor.map fun cursor => cursor.rootWith h w.depth []).toList)

/-- Reads the parts of a witness, and puts it together from them. -/
def read : Reader (DepthWitness Hash256) :=
  Reader.bind Witness.read fun w => Reader.pure (ofParts w.tree w.filled w.cursor)

/-- Where a subtree is being filled, the height that is kept is that of the subtree. -/
def Kept (w : DepthWitness α) : Prop := w.cursor.isSome → w.depth = w.nextDepth

/-- A witness of the last leaf has not begun a subtree. -/
theorem kept_ofTree (t : CommitmentTree α) : (ofTree t).Kept := nofun

/-- A witness that is put together from its parts keeps the height that they lead to. -/
theorem kept_ofParts (tree : CommitmentTree α) (filled : List α)
    (cursor : Option (CommitmentTree α)) : (ofParts tree filled cursor).Kept := fun _ => rfl

namespace Kept

variable {h : NodeHash α} {w : DepthWitness α}

/-- One leaf more is taken or refused as it is where the height is found out anew, the parts are
then the same, and the height is still kept. -/
theorem append (hw : w.Kept) (leaf : α) :
    (w.append h leaf).2.Kept ∧
      (w.append h leaf).1 = (w.toWitness.append? h leaf).isSome ∧
      (w.append h leaf).2.toWitness = (w.toWitness.append? h leaf).getD w.toWitness := by
  obtain ⟨⟨tree, filled, cursor⟩, depth⟩ := w
  unfold DepthWitness.append Witness.append?
  cases cursor with
  | some cursor =>
    obtain rfl : depth = Witness.nextDepth ⟨tree, filled, some cursor⟩ := hw rfl
    dsimp only
    cases cursor.append? h leaf with
    | none => exact ⟨hw, rfl, rfl⟩
    | some cursor =>
      dsimp only [Option.map_some]
      split
      · exact ⟨nofun, rfl, rfl⟩
      · exact ⟨fun _ => rfl, rfl, rfl⟩
  | none =>
    dsimp only
    split
    · exact ⟨nofun, rfl, rfl⟩
    split
    · exact ⟨nofun, rfl, rfl⟩
    · exact ⟨fun _ => rfl, rfl, rfl⟩

/-- So are any number of leaves. -/
theorem appendEach : ∀ (leaves : List α) {w : DepthWitness α}, w.Kept →
    (w.appendEach h leaves).2.Kept ∧
      (w.appendEach h leaves).1 = (w.toWitness.appendEach h leaves).1 ∧
      (w.appendEach h leaves).2.toWitness = (w.toWitness.appendEach h leaves).2
  | [], _, hw => ⟨hw, rfl, rfl⟩
  | leaf :: rest, w, hw => by
    obtain ⟨kept, taken, parts⟩ := hw.append (h := h) leaf
    obtain ⟨kept', taken', parts'⟩ := appendEach rest kept
    rw [parts] at taken' parts'
    exact ⟨kept', List.cons_eq_cons.2 ⟨taken, taken'⟩, parts'⟩

/-- The root does not depend on what is kept. -/
theorem root (hw : w.Kept) : w.root h = w.toWitness.root h := by
  obtain ⟨⟨tree, filled, cursor⟩, depth⟩ := w
  cases cursor with
  | none => rfl
  | some cursor =>
    obtain rfl : depth = Witness.nextDepth ⟨tree, filled, some cursor⟩ := hw rfl
    rfl

end Kept
end DepthWitness
end ShieldedLedger
