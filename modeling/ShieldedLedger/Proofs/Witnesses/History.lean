import ShieldedLedger.Proofs.CommitmentTree.Witness
import ShieldedLedger.Wallet.Witnesses

/-!
# The witness history of a note

A note keeps its witnesses newest first. The `i`-th of them witnesses the note in the tree as it was
`i` blocks ago: `NoteKept own chain tip size location d` says so for the chain whose blocks have the
leaves `chain`, the tip first, and that there are at most `size` witnesses and they are valid for
the height `tip`. While a block is being connected the first item of `chain` is as much of the block
as has been appended.

One lemma for each change of a note: opening a witness starts an empty block
(`NoteKept.openWitness`), a leaf makes that block longer (`NoteKept.appendLeaf?`), a note of ours
among the leaves gets its first witness (`NoteKept.withFirstWitness`), and dropping a witness goes
back by one block (`NoteKept.dropWitness`).
-/

namespace ShieldedLedger

/-- A commitment and the place of its note. -/
abbrev NoteLeaf := NoteLocation × Hash256

/-- The leaves of a chain, of which the leaves of each block are given, the tip first. -/
def leavesOf (chain : List (List NoteLeaf)) : List NoteLeaf := chain.reverse.flatten

/-- What the tree holds of the leaves. -/
def commitmentsOf (leaves : List NoteLeaf) : List Hash256 := leaves.map (·.2)

/-- The tree over the leaves. -/
abbrev TreeOf (t : NoteTree) (leaves : List NoteLeaf) : Prop :=
  CommitmentTree.Holds sproutHash t (commitmentsOf leaves)

/-- The leaves of a block come after those of the blocks below it. -/
@[simp] theorem leavesOf_cons (block : List NoteLeaf) (chain : List (List NoteLeaf)) :
    leavesOf (block :: chain) = leavesOf chain ++ block := by
  simp [leavesOf]

/-- The commitments of leaves and of more leaves are those of the first, then those of the
others. -/
@[simp] theorem commitmentsOf_append (leaves more : List NoteLeaf) :
    commitmentsOf (leaves ++ more) = commitmentsOf leaves ++ commitmentsOf more :=
  List.map_append

/-- The witness is of a leaf at the location, one of `own`, and follows the tree over the leaves. -/
def WitnessesNote (own : NoteLeaf → Prop) (leaves : List NoteLeaf) (location : NoteLocation)
    (w : NoteWitness) : Prop :=
  ∃ before commitment later, leaves = before ++ (location, commitment) :: later ∧
    own (location, commitment) ∧
    w.Follows sproutHash (commitmentsOf before ++ [commitment]) (commitmentsOf later)

namespace WitnessesNote

variable {own : NoteLeaf → Prop} {leaves : List NoteLeaf} {location : NoteLocation}
  {w : NoteWitness} {t : NoteTree}

/-- The root of the witness is that of the tree. -/
theorem root (hw : WitnessesNote own leaves location w) (ht : TreeOf t leaves) :
    w.root sproutHash = t.root sproutHash := by
  obtain ⟨before, commitment, later, rfl, -, follows⟩ := hw
  refine follows.root ?_
  unfold TreeOf at ht
  simpa [commitmentsOf] using ht

/-- At the position of the witness is a leaf of the note. -/
theorem position? (hw : WitnessesNote own leaves location w) :
    ∃ position commitment, w.position? = some position ∧
      leaves[position]? = some (location, commitment) ∧ own (location, commitment) := by
  obtain ⟨before, commitment, later, rfl, howned, follows⟩ := hw
  refine ⟨before.length, commitment, ?_, ?_, howned⟩
  · rw [follows.position?]
    simp [commitmentsOf]
  · simp

/-- As long as the tree takes a leaf, the witness does. -/
theorem append? (hw : WitnessesNote own leaves location w) {leaf : NoteLeaf} {t' : NoteTree}
    (ht : TreeOf t leaves) (ha : t.append? sproutHash leaf.2 = some t') :
    ∃ w', w.append? sproutHash leaf.2 = some w' ∧
      WitnessesNote own (leaves ++ [leaf]) location w' := by
  obtain ⟨before, commitment, later, rfl, howned, follows⟩ := hw
  unfold TreeOf at ht
  have ht : CommitmentTree.Holds sproutHash t
      (commitmentsOf before ++ [commitment] ++ commitmentsOf later) := by
    simpa [commitmentsOf] using ht
  obtain ⟨w', hstep, follows'⟩ := follows.append? ht ha
  refine ⟨w', hstep, before, commitment, later ++ [leaf], by simp, howned, ?_⟩
  rw [commitmentsOf_append]
  exact follows'

/-- The last leaf of a tree is witnessed by the tree. -/
theorem ofTree {leaf : NoteLeaf} (howned : own leaf) (ht : TreeOf t (leaves ++ [leaf])) :
    WitnessesNote own (leaves ++ [leaf]) leaf.1 (Witness.ofTree t) := by
  refine ⟨leaves, leaf.2, [], rfl, howned, ?_⟩
  unfold TreeOf at ht
  rw [commitmentsOf_append] at ht
  exact Witness.follows_ofTree ht (by simp)

end WitnessesNote

/-! ## Histories -/

/-- A leaf leaves a note with as many witnesses as it had. -/
theorem NoteData.length_appendLeaf? (d : NoteData) (leaf : Hash256) :
    ((d.appendLeaf? leaf).getD d).witnesses.length = d.witnesses.length := by
  unfold NoteData.appendLeaf?
  split
  · rfl
  · next newest older h =>
    cases newest.append? sproutHash leaf with
    | none => rfl
    | some grown =>
      rw [h]
      rfl

/-- With a new witness a note that had any has one more, up to the limit. -/
theorem NoteData.length_openWitness (limit : Nat) (d : NoteData) :
    (d.openWitness limit).witnesses.length =
      if d.witnesses.length = 0 then 0 else min (d.witnesses.length + 1) limit := by
  unfold NoteData.openWitness
  split
  · next h => simp [h]
  · next newest older h =>
    rw [h]
    simp [Nat.min_comm]

/-- The note's witnesses are those of the last blocks of the chain. -/
structure NoteKept (own : NoteLeaf → Prop) (chain : List (List NoteLeaf)) (tip : Int) (size : Nat)
    (location : NoteLocation) (d : NoteData) : Prop where
  /-- There are no more than the ledger accounts for. -/
  length_le : d.witnesses.length ≤ size
  /-- The newest is valid for the tip; before the first chain update there is none. -/
  height : d.witnessHeight = tip ∨ d.witnessHeight = -1 ∧ d.witnesses = []
  /-- Each is the witness of so many blocks ago. -/
  history : ∀ i w, d.witnesses[i]? = some w →
    WitnessesNote own (leavesOf (chain.drop i)) location w

namespace NoteKept

variable {own : NoteLeaf → Prop} {chain : List (List NoteLeaf)} {block : List NoteLeaf}
  {tip : Int} {size : Nat} {location : NoteLocation} {d : NoteData}

/-- A note without witnesses has nothing to keep. -/
theorem of_nil (hw : d.witnesses = []) (hh : d.witnessHeight = -1) :
    NoteKept own chain tip size location d where
  length_le := by
    rw [hw]
    exact Nat.zero_le _
  height := .inr ⟨hh, hw⟩
  history i w h := by
    rw [hw] at h
    cases h

/-- The witnesses of a note are all that counts. -/
theorem congr (hd : NoteKept own chain tip size location d) {d' : NoteData}
    (hw : d'.witnesses = d.witnesses) (hh : d'.witnessHeight = d.witnessHeight) :
    NoteKept own chain tip size location d' := by
  refine ⟨by rw [hw]; exact hd.length_le, by rw [hw, hh]; exact hd.height, fun i w h => ?_⟩
  rw [hw] at h
  exact hd.history i w h

/-- The newest witness is that of the tip. -/
theorem head (hd : NoteKept own chain tip size location d) {w : NoteWitness}
    (hw : d.witnesses.head? = some w) : WitnessesNote own (leavesOf chain) location w := by
  rw [List.head?_eq_getElem?] at hw
  exact hd.history 0 w hw

/-- Nothing is wrong with the note in an update from the tip's height. -/
theorem fault? (hd : NoteKept own chain tip size location d) : d.fault? size tip = none := by
  unfold NoteData.fault?
  rw [if_neg (Nat.not_lt.2 hd.length_le), if_neg]
  rintro ⟨hne, hne'⟩
  rcases hd.height with h | ⟨h, -⟩
  · exact hne' h
  · exact hne h

/-- A note that is kept up to the tip is behind every block above it. -/
theorem isBehind (hd : NoteKept own chain tip size location d) {height : Int} (htip : tip < height)
    (hpos : 0 ≤ height) : d.isBehind height = true := by
  unfold NoteData.isBehind
  rcases hd.height with h | ⟨h, -⟩
  · simp [h, htip]
  · rw [h]
    simp only [decide_eq_true_eq]
    omega

/-- A new witness is opened for a block of which nothing is appended yet. -/
theorem openWitness (hd : NoteKept own chain tip size location d) {limit : Nat}
    (hsize : size ≤ limit) :
    NoteKept own ([] :: chain) tip (if size < limit then size + 1 else size) location
      (d.openWitness limit) := by
  unfold NoteData.openWitness
  cases hw : d.witnesses with
  | nil =>
    refine ⟨by simp [hw], by simpa [hw] using hd.height, fun i w h => ?_⟩
    rw [hw] at h
    cases h
  | cons newest older =>
    have hlen := hd.length_le
    rw [hw, List.length_cons] at hlen
    dsimp only
    constructor
    case length_le =>
      rw [List.length_take, List.length_cons, List.length_cons]
      split <;> omega
    case height =>
      rcases hd.height with h | ⟨-, h⟩
      · exact .inl h
      · rw [hw] at h
        cases h
    case history =>
      intro i w h
      have h : (newest :: newest :: older)[i]? = some w := by
        rw [List.getElem?_take] at h
        split at h
        · exact h
        · cases h
      -- The witness on top is a copy of the newest, which is right for a block without leaves.
      cases i with
      | zero =>
        have same := hd.history 0 w (by rw [hw]; exact h)
        simpa using same
      | succ i => exact hd.history i w (by rw [hw]; exact h)

/-- A leaf that the tree takes is taken by the newest witness. -/
theorem appendLeaf? (hd : NoteKept own (block :: chain) tip size location d) {leaf : NoteLeaf}
    {t t' : NoteTree} (ht : TreeOf t (leavesOf (block :: chain)))
    (ha : t.append? sproutHash leaf.2 = some t') :
    ∃ d', d.appendLeaf? leaf.2 = some d' ∧
      NoteKept own ((block ++ [leaf]) :: chain) tip size location d' := by
  unfold NoteData.appendLeaf?
  cases hw : d.witnesses with
  | nil =>
    refine ⟨d, rfl, by simp [hw], hd.height, fun i w h => ?_⟩
    rw [hw] at h
    cases h
  | cons newest older =>
    have current := hd.head (w := newest) (by rw [hw]; rfl)
    obtain ⟨grown, hstep, hgrown⟩ := current.append? ht ha
    dsimp only
    rw [hstep]
    refine ⟨_, rfl, ?_, ?_, fun i w h => ?_⟩
    · have := hd.length_le
      rw [hw] at this
      exact this
    · rcases hd.height with h | ⟨-, h⟩
      · exact .inl h
      · rw [hw] at h
        cases h
    · cases i with
      | zero =>
        obtain rfl := Option.some.inj h
        simpa [List.append_assoc] using hgrown
      | succ i => exact hd.history (i + 1) w (by rw [hw]; exact h)

/-- The first witness of a note is of the leaf appended last. -/
theorem withFirstWitness {leaf : NoteLeaf} (howned : own leaf) {t : NoteTree}
    (ht : TreeOf t (leavesOf ((block ++ [leaf]) :: chain))) (hsize : 0 < size) (d : NoteData) :
    NoteKept own ((block ++ [leaf]) :: chain) tip size leaf.1
      (d.withFirstWitness (Witness.ofTree t) (tip + 1)) := by
  refine ⟨hsize, .inl ?_, fun i w h => ?_⟩
  · show tip + 1 - 1 = tip
    omega
  · cases i with
    | zero =>
      obtain rfl := Option.some.inj h
      rw [List.drop_zero, leavesOf_cons, ← List.append_assoc] at *
      exact .ofTree howned ht
    | succ i => cases h

/-- Once the block is appended the witnesses are valid for its height. -/
theorem settle (hd : NoteKept own chain tip size location d) (height : Int) :
    NoteKept own chain height size location { d with witnessHeight := height } :=
  ⟨hd.length_le, .inl rfl, hd.history⟩

/-- Without the newest witness, the history is that of the chain without its tip. -/
theorem dropWitness (hd : NoteKept own (block :: chain) tip size location d) (height : Int) :
    NoteKept own chain (height - 1) (size - 1) location (d.dropWitness height) := by
  refine ⟨?_, .inl rfl, fun i w h => ?_⟩
  · have := hd.length_le
    show (d.witnesses.drop 1).length ≤ size - 1
    rw [List.length_drop]
    omega
  · have h : (d.witnesses.drop 1)[i]? = some w := h
    rw [List.getElem?_drop, Nat.add_comm] at h
    exact hd.history (i + 1) w h

end NoteKept
end ShieldedLedger
