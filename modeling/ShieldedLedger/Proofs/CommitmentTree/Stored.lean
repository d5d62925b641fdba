import ShieldedLedger.CommitmentTree.Encoding
import ShieldedLedger.Proofs.CommitmentTree.KeptDepth
import ShieldedLedger.Proofs.CommitmentTree.Witness
import ShieldedLedger.Proofs.Encoding.RoundTrip

/-!
# Stored trees and witnesses come back

A tree of leaves is read back from what is written of it (`CommitmentTree.readsBack`), because its
path is no longer than the depth allows (`CommitmentTree.Holds.length_parents_lt`). A witness that
follows its leaves is read back too (`Witness.Follows.readsBack`): it has filled no more subtrees
than its tree has gaps, and the one it is filling is a tree of leaves itself. What is not written is
the height of that one. It is found out from the parts that are, so the witness that comes back and
the one that was written go on alike (`DepthWitness.Kept.alike`,
`CommitmentTree.stored_comes_back`).
-/

namespace ShieldedLedger

variable {α : Type} {h : NodeHash α}

/-! ## How much there is to write -/

namespace CommitmentTree

/-- A path stands for as many leaves as a tree of its height has, or more: the subtree that was
carried highest is still there. -/
theorem width_length_carry : ∀ {parents : List (Option α)} (node : α),
    (parents ≠ [] → width parents.length ≤ 2 * parentLeaves 1 parents) →
      width (carry h node parents).length ≤ 2 * parentLeaves 1 (carry h node parents)
  | [], _, _ => Nat.le_refl _
  | none :: rest, node, hwide => by
    have wide := hwide (List.cons_ne_nil _ _)
    simp only [carry, parentLeaves, List.length_cons] at wide ⊢
    omega
  | some waiting :: rest, node, hwide => by
    have wide := hwide (List.cons_ne_nil _ _)
    have counted := parentLeaves_two_mul rest 1
    simp only [parentLeaves, List.length_cons, width] at wide counted
    have above : width (carry h (h.combine waiting node) rest).length ≤
        2 * parentLeaves 1 (carry h (h.combine waiting node) rest) := by
      refine width_length_carry _ fun hne => ?_
      -- a width above the leaves is even, so the one leaf too many does not count
      obtain ⟨_, _, rfl⟩ := List.exists_cons_of_ne_nil hne
      simp only [List.length_cons, width] at wide ⊢
      omega
    have counted' := parentLeaves_two_mul (carry h (h.combine waiting node) rest) 1
    simp only [carry, parentLeaves, List.length_cons, width] at above counted' ⊢
    omega

namespace Holds

variable {t : CommitmentTree α} {leaves : List α}

/-- The levels of a tree are no more than its leaves need. -/
theorem width_length_parents (ht : Holds h t leaves) :
    t.parents ≠ [] → width t.parents.length ≤ 2 * parentLeaves 1 t.parents := by
  induction ht with
  | empty => exact fun hne => absurd rfl hne
  | @append t t' leaves leaf ht ha ih =>
    obtain ⟨-, rfl⟩ := append?_eq_some_iff.1 ha
    unfold grow
    split
    · exact ih
    · exact ih
    · exact fun _ => width_length_carry _ ih

/-- No tree of leaves has more levels than a tree may have. -/
theorem length_parents_lt (ht : Holds h t leaves) : t.parents.length < treeDepth := by
  by_contra hlong
  have wide : width treeDepth ≤ width t.parents.length := width_le_of_le (Nat.not_lt.1 hlong)
  have hne : t.parents ≠ [] := by
    rintro hnil
    rw [hnil] at hlong
    exact hlong (Nat.succ_pos _)
  have some_leaf : leaves ≠ [] := by
    rintro rfl
    rw [ht.eq_empty] at hne
    exact hne rfl
  obtain ⟨size, left⟩ := ht.size?
  have counted : parentLeaves 2 t.parents = 2 * parentLeaves 1 t.parents :=
    parentLeaves_two_mul t.parents 1
  have stored := ht.width_length_parents hne
  have most := ht.length_le
  obtain ⟨l, hl⟩ := Option.isSome_iff_exists.1 (left some_leaf)
  unfold CommitmentTree.size? at size
  rw [hl] at size
  cases hr : t.right <;> rw [hr] at size <;>
  · have := Option.some.inj size
    omega

end Holds

/-- Levels are added or cut to the number asked for. -/
theorem length_pad : ∀ (n : Nat) (parents : List (Option α)), (pad n parents).length = n
  | 0, _ => rfl
  | n + 1, [] => congrArg (· + 1) (length_pad n [])
  | n + 1, _ :: rest => congrArg (· + 1) (length_pad n rest)

/-- There are no more gaps than levels. -/
theorem length_gaps_le : ∀ (k : Nat) (parents : List (Option α)),
    (gaps k parents).length ≤ parents.length
  | _, [] => Nat.le_refl _
  | k, some _ :: rest => Nat.le_succ_of_le (length_gaps_le (k + 1) rest)
  | k, none :: rest => Nat.succ_le_succ (length_gaps_le (k + 1) rest)

/-- At most both leaves and all levels above them are missing. -/
theorem length_missing_le (t : CommitmentTree α) (depth : Nat) :
    (t.missing depth).length ≤ 2 + (depth - 1) := by
  have levels := length_gaps_le 1 (pad (depth - 1) t.parents)
  rw [length_pad] at levels
  unfold missing
  rw [List.length_append, List.length_append]
  split <;> split <;> simp only [List.length_nil, List.length_singleton] <;> omega

/-! ## Reading back -/

/-- A node is read back, as its encoding is as long as a node. -/
theorem readsBack_node (node : Hash256) : Reader.ReadsBack readNode (encodeNode node) node :=
  Reader.ReadsBack.take node

/-- A tree is read back if it has no more levels than a tree may have. -/
theorem readsBack {t : NoteTree} (hlevels : t.parents.length < treeDepth) :
    Reader.ReadsBack read t.encode t := by
  have node {o : Option Hash256} :
      Reader.ReadsBack (Reader.optional readNode) (encodeOptional encodeNode o) o :=
    .optional fun node _ => readsBack_node node
  have parents : Reader.ReadsBack (readList (Reader.optional readNode))
      (encodeList (encodeOptional encodeNode) t.parents) t.parents :=
    .list (Nat.le_trans (Nat.le_of_lt hlevels) (by decide)) fun _ _ => node
  unfold encode
  rw [List.append_assoc]
  exact node.bind (node.bind (parents.bind_pure (if_pos hlevels)))

end CommitmentTree

namespace Witness

/-- A witness is read back if its trees are, and if it has not filled too much. -/
theorem readsBack {w : NoteWitness} (htree : w.tree.parents.length < treeDepth)
    (hfilled : w.filled.length ≤ maxCount)
    (hcursor : ∀ t, w.cursor = some t → t.parents.length < treeDepth) :
    Reader.ReadsBack read w.encode w := by
  have filled : Reader.ReadsBack (readList readNode) (encodeList encodeNode w.filled) w.filled :=
    .list hfilled fun node _ => CommitmentTree.readsBack_node node
  have cursor : Reader.ReadsBack (Reader.optional CommitmentTree.read)
      (encodeOptional CommitmentTree.encode w.cursor) w.cursor :=
    .optional fun t ht => CommitmentTree.readsBack (hcursor t ht)
  unfold encode
  rw [List.append_assoc]
  exact (CommitmentTree.readsBack htree).bind (filled.bind (cursor.bind_pure rfl))

namespace Follows

variable {w : Witness α} {before later : List α}

/-- A witness follows the leaves that it takes. -/
theorem appendEach : ∀ (leaves : List α) {w : Witness α} {later : List α},
    Follows h w before later → (∀ taken ∈ (w.appendEach h leaves).1, taken = true) →
      Follows h (w.appendEach h leaves).2 before (later ++ leaves)
  | [], _, _, hw, _ => by rwa [List.append_nil]
  | leaf :: rest, w, later, hw, hall => by
    obtain ⟨first, others⟩ := List.forall_mem_cons.1 hall
    obtain ⟨w', ha⟩ := Option.isSome_iff_exists.1 first
    rw [ha] at others
    have follows := appendEach rest (hw.of_append? ha) others
    rw [List.append_assoc, List.singleton_append] at follows
    unfold Witness.appendEach
    rw [ha]
    exact follows

/-- A witness that follows its leaves is read back. -/
theorem readsBack {h : NodeHash Hash256} {w : NoteWitness} {before later : List Hash256}
    (hw : Follows h w before later) : Reader.ReadsBack read w.encode w := by
  refine Witness.readsBack hw.tree.length_parents_lt ?_ fun t ht => ?_
  · have filled := hw.caught.length_filled_le
    have missing := w.tree.length_missing_le treeDepth
    exact Nat.le_trans filled (Nat.le_trans missing (by decide))
  · obtain ⟨_, held⟩ := hw.caught.exists_holds ht
    exact held.length_parents_lt

end Follows
end Witness
/-! ## Stored and read back -/

/-- Two witnesses that keep the height they are filling and have the same parts take the same
leaves, and have the same parts and the same root then. -/
theorem DepthWitness.Kept.alike {w w' : DepthWitness α} (hw : w.Kept) (hw' : w'.Kept)
    (hparts : w'.toWitness = w.toWitness) (leaves : List α) :
    (w'.appendEach h leaves).1 = (w.appendEach h leaves).1 ∧
      (w'.appendEach h leaves).2.toWitness = (w.appendEach h leaves).2.toWitness ∧
      (w'.appendEach h leaves).2.root h = (w.appendEach h leaves).2.root h := by
  obtain ⟨kept, taken, parts⟩ := hw.appendEach (h := h) leaves
  obtain ⟨kept', taken', parts'⟩ := hw'.appendEach (h := h) leaves
  rw [hparts] at taken' parts'
  have same := parts'.trans parts.symm
  exact ⟨taken'.trans taken.symm, same, by rw [kept'.root, kept.root, same]⟩

/-- A tree of leaves is read back from its encoding, whatever bytes follow, and nothing of these is
taken. So is a witness of its next leaf that has taken any number of leaves since. A witness that
keeps the height it is filling, which is not written, comes back with the same position, root and
encoding, and goes on like the one that was written: of any further leaves it takes the same ones,
and has the same root and encoding then. -/
theorem CommitmentTree.stored_comes_back {h : NodeHash Hash256} {t : NoteTree}
    {leaves : List Hash256} (ht : Holds h t leaves) (trailing : List UInt8) :
    read (t.encode ++ trailing) = .ok (t, trailing) ∧
      ∀ {leaf : Hash256} {later : List Hash256} {t' : NoteTree} {w₀ : NoteWitness},
        t.appendWitnessed? h leaf = some (t', w₀) →
        (∀ taken ∈ (w₀.appendEach h later).1, taken = true) →
        let w := (w₀.appendEach h later).2
        let grown := ((DepthWitness.ofTree t').appendEach h later).2
        Witness.read (w.encode ++ trailing) = .ok (w, trailing) ∧
          grown.toWitness = w ∧ grown.root h = w.root h ∧
          ∃ back, DepthWitness.read (grown.encode ++ trailing) = .ok (back, trailing) ∧
            back.position? = grown.position? ∧ back.root h = grown.root h ∧
            back.encode = grown.encode ∧
            ∀ more, (back.appendEach h more).1 = (grown.appendEach h more).1 ∧
              (back.appendEach h more).2.root h = (grown.appendEach h more).2.root h ∧
              (back.appendEach h more).2.encode = (grown.appendEach h more).2.encode := by
  refine ⟨CommitmentTree.readsBack ht.length_parents_lt trailing, ?_⟩
  intro leaf later _ _ hwitnessed hall w grown
  obtain ⟨t', ha, hpair⟩ := Option.map_eq_some_iff.1 hwitnessed
  obtain ⟨rfl, rfl⟩ := Prod.mk.inj hpair
  have follows : Witness.Follows h w (leaves ++ [leaf]) ([] ++ later) :=
    (Witness.follows_ofTree (.append ht ha) (by simp)).appendEach later hall
  have stored : Witness.read (w.encode ++ trailing) = .ok (w, trailing) :=
    follows.readsBack trailing
  obtain ⟨kept, -, parts⟩ := (DepthWitness.kept_ofTree t').appendEach (h := h) later
  have parts : grown.toWitness = w := parts
  let back := DepthWitness.ofParts w.tree w.filled w.cursor
  have read : DepthWitness.read (grown.encode ++ trailing) = .ok (back, trailing) := by
    rw [parts, DepthWitness.read, Reader.bind, stored]
    rfl
  have alike (more : List Hash256) := kept.alike (h := h)
    (DepthWitness.kept_ofParts w.tree w.filled w.cursor) parts.symm more
  have root : grown.root h = w.root h := by rw [kept.root, parts]
  refine ⟨stored, parts, root, back, read, ?_, (alike []).2.2, ?_, fun more => ?_⟩
  · rw [parts]
    rfl
  · rw [parts]
    rfl
  · obtain ⟨taken, same, roots⟩ := alike more
    exact ⟨taken, roots, congrArg Witness.encode same⟩

/-- A witness of the first leaf that has taken two more, the second of which has begun a subtree,
comes back from before a stray byte. -/
theorem CommitmentTree.stored_comes_back_begun :
    let w₀ : NoteWitness := .ofTree ⟨some (Bytes.filled 32 1), none, []⟩
    let later := [Bytes.filled 32 2, Bytes.filled 32 3]
    let grown := ((DepthWitness.ofTree w₀.tree).appendEach sproutHash later).2
    (empty : NoteTree).appendWitnessed? sproutHash (Bytes.filled 32 1) = some (w₀.tree, w₀) ∧
      (∀ taken ∈ (w₀.appendEach sproutHash later).1, taken = true) ∧
      grown.depth = 1 ∧ grown.cursor.isSome ∧
      ∃ back, DepthWitness.read (grown.encode ++ [7]) = .ok (back, [7]) ∧
        back.root sproutHash = grown.root sproutHash := by
  intro w₀ later grown
  have witnessed : (empty : NoteTree).appendWitnessed? sproutHash (Bytes.filled 32 1) =
      some (w₀.tree, w₀) := rfl
  have taken : ∀ taken ∈ (w₀.appendEach sproutHash later).1, taken = true := by
    have both : (w₀.appendEach sproutHash later).1 = [true, true] := rfl
    simp [both]
  obtain ⟨-, comesBack⟩ := stored_comes_back (h := sproutHash) .empty [7]
  obtain ⟨-, -, -, back, read, -, root, -⟩ := comesBack witnessed taken
  exact ⟨witnessed, taken, rfl, rfl, back, read, root⟩

end ShieldedLedger
