import ShieldedLedger.Proofs.Witnesses.Sync

/-!
# Every note under a chain update

What a chain update makes of a note, whether or not the notes fit the update and the tree has room:
the update may stop with a fault, and then nothing has changed; or the tree takes no more leaves,
and then witnesses have been opened and leaves appended; or it succeeds, and then the notes are
settled too. `connectBlock_cases` tells these cases apart, and `Holding.forM_appendBlockLeaf` says
what holds of every note when the walk over the leaves is over, from what opening a witness, a leaf
and a first witness do to a single note. Disconnecting a block is one change of every note
(`disconnectBlock_cases`).
-/

namespace ShieldedLedger
namespace Ledger

variable {l l' : Ledger} {height : Int} {block : Block} {s : TipState}

/-! ## The course of an update -/

/-- The ledger once all notes have taken a leaf of the block at `height`, the last one of `tree`. -/
def afterLeaf (l : Ledger) (height : Int) (leaf : NoteLeaf) (tree : NoteTree) : Ledger :=
  if l.needsWitness leaf.1 height then
    Ledger.modifyNote (l.appendToNotes height leaf.2).1 leaf.1
      (·.withFirstWitness (Witness.ofTree tree) height)
  else (l.appendToNotes height leaf.2).1

/-- A leaf is not taken at all, or by the tree and some notes, or by the tree and all notes. -/
theorem appendBlockLeaf_cases (height : Int) (leaf : NoteLeaf) (s : TipState) :
    s.tree.append? sproutHash leaf.2 = none ∧
      appendBlockLeaf height leaf s = (.error (.error .treeFull), s) ∨
    ∃ tree, s.tree.append? sproutHash leaf.2 = some tree ∧
      ((s.ledger.appendToNotes height leaf.2).2 = false ∧
        appendBlockLeaf height leaf s =
          (.error (.error .treeFull), ⟨(s.ledger.appendToNotes height leaf.2).1, tree⟩) ∨
      (s.ledger.appendToNotes height leaf.2).2 = true ∧
        appendBlockLeaf height leaf s = (.ok (), ⟨s.ledger.afterLeaf height leaf tree, tree⟩)) := by
  unfold appendBlockLeaf afterLeaf
  cases ha : s.tree.append? sproutHash leaf.2 with
  | none => exact .inl ⟨rfl, rfl⟩
  | some tree =>
    refine .inr ⟨tree, rfl, ?_⟩
    dsimp only
    split
    · next happend =>
      rw [happend]
      exact .inl ⟨rfl, rfl⟩
    · next happend =>
      rw [happend]
      exact .inr ⟨rfl, rfl⟩

/-- Nothing but a full tree stops the walk over the leaves of a block. -/
theorem forM_appendBlockLeaf_error (height : Int) (leaves : List NoteLeaf) (s : TipState) {e}
    (h : (leaves.forM (appendBlockLeaf height) s).1 = .error e) : e = .error .treeFull := by
  obtain ⟨done, leaf, rest, s₁, -, -, hlast⟩ := exists_of_forM_error (eq_of_parts h rfl)
  rcases appendBlockLeaf_cases height leaf s₁ with
    ⟨-, hstep⟩ | ⟨tree, -, ⟨-, hstep⟩ | ⟨-, hstep⟩⟩ <;> rw [hstep] at hlast
  · exact (Except.error.inj (congrArg Prod.fst hlast)).symm
  · exact (Except.error.inj (congrArg Prod.fst hlast)).symm
  · cases hlast

/-- A walk that is not stopped takes every leaf into the tree. -/
theorem treeOf_of_forM_appendBlockLeaf (leaves : List NoteLeaf) {before : List NoteLeaf}
    {s s₁ : TipState} (ht : TreeOf s.tree before)
    (h : leaves.forM (appendBlockLeaf height) s = (.ok (), s₁)) :
    TreeOf s₁.tree (before ++ leaves) := by
  refine of_forM_ok (R := fun done s => TreeOf s.tree done) (fun done leaf s s' hs h => ?_) ht h
  rcases appendBlockLeaf_cases height leaf s with
    ⟨-, hstep⟩ | ⟨tree, taken, ⟨-, hstep⟩ | ⟨-, hstep⟩⟩ <;> rw [hstep] at h
  · cases h
  · cases h
  · obtain rfl := congrArg Prod.snd h
    unfold TreeOf
    rw [commitmentsOf_append]
    exact .append hs taken

/-- Connecting a block stops with a fault at once, or goes over its leaves. If the tree takes all of
them, the notes are settled. -/
theorem connectBlock_cases (height : Int) (block : Block) (s : TipState) :
    (∃ fault, s.ledger.connectFault? height = some fault ∧
      connectBlock height block s = (.error (.fault fault), s)) ∨
    (s.ledger.connectFault? height = none ∧ ∃ outcome s₁,
      block.noteLeaves.forM (appendBlockLeaf height) ⟨s.ledger.openWitnesses height, s.tree⟩ =
        (outcome, s₁) ∧
      (outcome = .ok () ∧
          connectBlock height block s = (.ok (), ⟨s₁.ledger.settleWitnesses height, s₁.tree⟩) ∨
        outcome = .error (.error .treeFull) ∧
          connectBlock height block s = (.error (.error .treeFull), s₁))) := by
  have got : (get : TipOp TipState) s = (.ok s, s) := rfl
  cases hfault : s.ledger.connectFault? height with
  | some fault =>
    refine .inl ⟨fault, rfl, ?_⟩
    unfold connectBlock
    rw [bind_of_ok got, hfault]
    rfl
  | none =>
    have opening : (modify fun s => { s with ledger := s.ledger.openWitnesses height } :
        TipOp PUnit) s = (.ok (), ⟨s.ledger.openWitnesses height, s.tree⟩) := rfl
    refine .inr ⟨rfl, ?_⟩
    unfold connectBlock
    rw [bind_of_ok got, hfault]
    dsimp only
    rw [bind_of_ok opening]
    cases hs : block.noteLeaves.forM (appendBlockLeaf height)
      ⟨s.ledger.openWitnesses height, s.tree⟩ with
    | mk outcome s₁ =>
      refine ⟨outcome, s₁, rfl, ?_⟩
      cases outcome with
      | ok _ =>
        rw [bind_of_ok hs]
        exact .inl ⟨rfl, rfl⟩
      | error e =>
        obtain rfl := forM_appendBlockLeaf_error height block.noteLeaves _ (congrArg Prod.fst hs)
        exact .inr ⟨rfl, bind_of_error hs⟩

/-- Disconnecting a block stops with a fault at once, or drops the newest witness of every note. -/
theorem disconnectBlock_cases (height : Int) (l : Ledger) :
    (∃ fault, l.disconnectFault? height = some fault ∧
      disconnectBlock height l = (.error (.fault fault), l)) ∨
    (l.disconnectFault? height = none ∧
      disconnectBlock height l = (.ok (), l.dropWitnesses height)) := by
  unfold disconnectBlock
  cases l.disconnectFault? height with
  | some fault => exact .inl ⟨fault, rfl, rfl⟩
  | none => exact .inr ⟨rfl, rfl⟩

/-- On a ledger and a tree, connecting a block is what the chain update does to its state. -/
theorem tipOn_connect (tree : NoteTree) (index : BlockIndex) (block : Block) (l : Ledger) :
    tipOn tree (chainTip index block true) l =
      ((connectBlock index.height block ⟨l, tree⟩).1,
        (connectBlock index.height block ⟨l, tree⟩).2.ledger) := rfl

/-- On a ledger and a tree, disconnecting a block leaves the tree aside. -/
theorem tipOn_disconnect (tree : NoteTree) (index : BlockIndex) (block : Block) (l : Ledger) :
    tipOn tree (chainTip index block false) l = disconnectBlock index.height l := rfl

/-! ## Every note -/

section
variable {known : Record → Prop} {P Q : Record → NoteLocation → NoteData → Prop}

/-- Two statements about all notes are one statement. -/
theorem ForNotes.and (hP : ForNotes P l) (hQ : ForNotes Q l) :
    ForNotes (fun r location d => P r location d ∧ Q r location d) l := by
  intro hash e he location d hd
  obtain ⟨hloc, hd₁⟩ := hP hash e he location d hd
  exact ⟨hloc, hd₁, (hQ hash e he location d hd).2⟩

/-- A walk over all notes turns a statement into another one if each of its steps does. -/
theorem ForNotes.mapNotesAccum {σ : Type} {f : σ → NoteData → NoteData × σ} (hl : ForNotes P l)
    (h : ∀ s r location d, P r location d → Q r location (f s d).1) (s : σ) :
    ForNotes Q (l.mapNotesAccum f s).1 := by
  intro hash e' he' location d' hd'
  obtain ⟨e, s₁, -, he, rfl⟩ := SortedMap.exists_of_get?_mapAccum he'
  obtain ⟨d, s₂, -, hd, rfl⟩ := SortedMap.exists_of_get?_mapAccum hd'
  obtain ⟨hloc, hP⟩ := hl hash e he location d hd
  exact ⟨hloc, h _ _ _ _ hP⟩

/-- What is read off the entries with notes that a chain update has changed. -/
theorem Holding.of_notes (hl : Holding known P l) (h : Agree Entry.record l l')
    (notes : ForNotes Q l') : Holding known Q l' :=
  ⟨Agree.records h hl.entries, notes⟩

/-- A statement about all notes may be weakened for each of them. -/
theorem Holding.imp (hl : Holding known P l)
    (h : ∀ r location d, P r location d → Q r location d) : Holding known Q l :=
  ⟨hl.entries, hl.notes.imp h⟩

/-- A leaf keeps what the newest witness keeps when it takes the leaf, and what is true of the first
witness of the leaf's own note. -/
theorem keeps_holding_appendBlockLeaf {leaf : NoteLeaf}
    (grow : ∀ r location d d', P r location d → d.appendLeaf? leaf.2 = some d' → P r location d')
    (first : ∀ r d w, P r leaf.1 d → P r leaf.1 (d.withFirstWitness w height)) :
    Keeps (fun s => Holding known P s.ledger) (appendBlockLeaf height leaf) := by
  refine keeps_appendBlockLeaf (fun l hl => ?_) fun l w hl => ?_
  · refine hl.of_notes (agree_appendToNotes (fun _ _ _ => rfl) height leaf.2) ?_
    refine hl.notes.mapNotesAccum (fun ok r location d hd => ?_) true
    split
    · split
      · next d' hd' => exact grow _ _ _ _ hd hd'
      · exact hd
    · exact hd
  · refine hl.of_notes (agree_modifyNote (fun _ _ _ => rfl) _ _) ?_
    exact hl.notes.modifyNote fun e d _ hd => first _ _ _ hd

/-- The cache size does not change when a leaf is appended. -/
theorem keeps_cacheSize_appendBlockLeaf (leaf : NoteLeaf) (size : Nat) :
    Keeps (fun s => s.ledger.cacheSize = size) (appendBlockLeaf height leaf) :=
  keeps_appendBlockLeaf (I := fun l => l.cacheSize = size) (fun _ hl => hl) fun _ _ hl => hl

/-- What holds of every note when the walk over the leaves of a block is over, if opening a witness
brings it about and no leaf of the block undoes it. -/
theorem Holding.forM_appendBlockLeaf (hl : Holding known P l) (tree : NoteTree)
    (opened : ∀ r location d, P r location d →
      Q r location (if d.isBehind height then d.openWitness l.settings.witnessLimit else d))
    (grow : ∀ r location d d' leaf, Q r location d → d.appendLeaf? leaf = some d' →
      Q r location d')
    (first : ∀ leaf ∈ block.noteLeaves, ∀ r d w, Q r leaf.1 d →
      Q r leaf.1 (d.withFirstWitness w height)) {outcome : Except Failure PUnit} {s₁ : TipState}
    (h : block.noteLeaves.forM (appendBlockLeaf height) ⟨l.openWitnesses height, tree⟩ =
      (outcome, s₁)) :
    Holding known Q s₁.ledger ∧ s₁.ledger.cacheSize = (l.openWitnesses height).cacheSize ∧
      s₁.ledger.settings = l.settings := by
  have start : Holding known Q (l.openWitnesses height) := by
    refine hl.of_notes (agree_openWitnesses (fun _ _ _ => rfl) height) ?_
    exact ForNotes.of_entries (l := l.mapNotes _) (hl.notes.mapNotes opened) rfl
  have notes : Keeps (fun s => Holding known Q s.ledger)
      (block.noteLeaves.forM (appendBlockLeaf height)) :=
    Keeps.forM _ fun leaf hleaf => keeps_holding_appendBlockLeaf
      (fun r location d d' => grow r location d d' leaf.2) (first leaf hleaf)
  have size : Keeps (fun s => s.ledger.cacheSize = (l.openWitnesses height).cacheSize)
      (block.noteLeaves.forM (appendBlockLeaf height)) :=
    Keeps.forM _ fun leaf _ => keeps_cacheSize_appendBlockLeaf leaf _
  have same : Keeps (fun s => Agree Entry.record (l.openWitnesses height) s.ledger)
      (block.noteLeaves.forM (appendBlockLeaf height)) :=
    Keeps.forM _ fun leaf _ => keeps_agree_appendBlockLeaf (fun _ _ _ => rfl) _ height leaf
  exact ⟨notes.result (s := ⟨l.openWitnesses height, tree⟩) start h,
    size.result (s := ⟨l.openWitnesses height, tree⟩) rfl h,
    (same.result (s := ⟨l.openWitnesses height, tree⟩) (.refl _ _) h).settings⟩

end
end Ledger
end ShieldedLedger
