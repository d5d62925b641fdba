import ShieldedLedger.Proofs.Witnesses.Sync
import ShieldedLedger.Simulation.Chain
import ShieldedLedger.Simulation.Keys

/-!
# A ledger that follows a chain

A `Follower` is an empty ledger put beside an empty chain, and from then on told of every block that
is connected or disconnected (`Follower.step`). In between records are announced, entries are
erased, keys are locked and unlocked, and the witnesses may be forgotten; the keys, the clock and
what is seen of the chain may be others at each step.

As long as the tree has room, an update stops with a fault only if a block is disconnected when no
witness is accounted for any more, and after every step the newest witness of each note is one in
the tree after the tip, at a leaf with the note's place.

Which commitment stands at that leaf is another question. An entry is found by the hash of its
record, and transparent transactions are hashed without their joinsplits, so another record with the
same hash may be the one in the block.
-/

namespace ShieldedLedger

/-! ## Leaves of records -/

/-- The commitments of a record, each with the place of its note. -/
def Record.noteLeaves : Record → List NoteLeaf
  | .transaction tx => tx.body.joinSplits.zipIdx.flatMap fun (js, index) =>
      js.commitmentList.zipIdx.map fun (commitment, n) =>
        (⟨tx.hash, UInt64.ofNat index, UInt8.ofNat n⟩, commitment)
  | .certificate _ => []

/-- The place of a note tells the hash of its record. -/
theorem Record.hash_of_mem_noteLeaves {r : Record} {leaf : NoteLeaf} (h : leaf ∈ r.noteLeaves) :
    leaf.1.hash = r.hash := by
  cases r with
  | transaction tx =>
    obtain ⟨⟨js, index⟩, -, h⟩ := List.mem_flatMap.1 h
    obtain ⟨⟨commitment, n⟩, -, rfl⟩ := List.mem_map.1 h
    rfl
  | certificate cert => cases h

/-- The leaves of a block are those of its records. -/
theorem Block.exists_record {b : Block} {leaf : NoteLeaf} (h : leaf ∈ b.noteLeaves) :
    ∃ r ∈ b.records, leaf ∈ r.noteLeaves := by
  obtain ⟨tx, htx, h⟩ := List.mem_flatMap.1 h
  exact ⟨.transaction tx, List.mem_append_left _ (List.mem_map_of_mem htx), h⟩

/-! ## The tree of a chain -/

/-- The leaves of a chain of blocks, of which the tip comes first. -/
def chainLeaves (blocks : List Block) : List NoteLeaf := leavesOf (blocks.map Block.noteLeaves)

/-- The tree after a chain of blocks. -/
def treeAfter (blocks : List Block) : NoteTree :=
  (CommitmentTree.empty.appendAll sproutHash (commitmentsOf (chainLeaves blocks))).1

/-- The tree takes all leaves of the chain. -/
def HasRoom (blocks : List Block) : Prop :=
  (CommitmentTree.empty.appendAll sproutHash (commitmentsOf (chainLeaves blocks))).2 = true

/-- If it has room for them, the tree holds the leaves of the chain. -/
theorem HasRoom.treeOf {blocks : List Block} (h : HasRoom blocks) :
    TreeOf (treeAfter blocks) (chainLeaves blocks) := by
  have grown := CommitmentTree.Holds.appendAll _ .empty h
  rwa [List.nil_append] at grown

/-- There is room for a chain exactly if it has no more leaves than the tree is wide. -/
theorem hasRoom_iff {blocks : List Block} :
    HasRoom blocks ↔ (chainLeaves blocks).length ≤ width treeDepth := by
  have count : (commitmentsOf (chainLeaves blocks)).length = (chainLeaves blocks).length :=
    List.length_map _
  rw [← count]
  constructor
  · exact fun h => h.treeOf.length_le
  · intro h
    obtain ⟨t, ht⟩ := CommitmentTree.Holds.exists_extended _ (.empty (h := sproutHash)) h
    have grown : CommitmentTree.empty.appendAll sproutHash (commitmentsOf (chainLeaves blocks)) =
        (t, true) := CommitmentTree.Holds.appendAll_eq _ .empty ht
    exact congrArg Prod.snd grown

/-- A tree with room for a chain has room for the part of it up to an earlier block. -/
theorem HasRoom.of_append {later earlier : List Block} (h : HasRoom (later ++ earlier)) :
    HasRoom earlier := by
  rw [hasRoom_iff] at h ⊢
  unfold chainLeaves leavesOf at h ⊢
  rw [List.map_append, List.reverse_append, List.flatten_append, List.length_append] at h
  omega

/-- A tree with room for a chain has room for the chain without its tip. -/
theorem HasRoom.of_cons {block : Block} {blocks : List Block} (h : HasRoom (block :: blocks)) :
    HasRoom blocks :=
  (show HasRoom ([block] ++ blocks) from h).of_append

/-! ## Faults -/

/-- The fault an operation stopped with, if it did. -/
def faultOf {α : Type} : Except Failure α → Option WitnessFault
  | .error (.fault fault) => some fault
  | .error (.error _) | .ok _ => none

/-- What a check of the result finds, if there is a result. -/
theorem exists_ok_of_any {α : Type} {outcome : Except Failure α} {p : α → Bool}
    (h : outcome.toOption.any p = true) : ∃ a, outcome = .ok a ∧ p a = true := by
  cases outcome with
  | ok a => exact ⟨a, rfl, h⟩
  | error failure => cases h

/-- The operation may be refused, but never stops with a fault. -/
def Faultless {α : Type} (op : LedgerOp α) : Prop := ∀ l, faultOf (op l).1 = none

namespace Faultless

variable {α β : Type}

/-- Two faultless operations in a row are faultless. -/
theorem bind {op : LedgerOp α} {f : α → LedgerOp β} (hop : Faultless op)
    (hf : ∀ a, Faultless (f a)) : Faultless (op >>= f) := by
  intro l
  have h := hop l
  show faultOf (ExceptT.bindCont f (op l).1 (op l).2).1 = none
  cases ho : (op l).1 with
  | ok a => exact hf a _
  | error failure =>
    rw [ho] at h
    cases failure with
    | error e => rfl
    | fault fault => cases h

/-- A question to the ledger is faultless: the error it may end in is a refusal. -/
theorem ask (f : Ledger → Except LedgerError α) : Faultless (LedgerOp.ask f) := by
  intro l
  unfold LedgerOp.ask
  split <;> rfl

/-- Adding an entry is faultless. -/
theorem addEntry (chain : ChainView) (now : Int64) (incoming : Entry) :
    Faultless (Ledger.addEntry chain now incoming) := by
  intro l
  unfold Ledger.addEntry
  dsimp only
  split <;> rfl

theorem answer (a : α) : Faultless (pure a : LedgerOp α) := fun _ => rfl

/-- Taking in a record that concerns the wallet is faultless. -/
theorem addIfRelevant (keys : KeyView) (chain : ChainView) (now : Int64) (incoming : Entry)
    (block : Option Block) (update : Bool) :
    Faultless (Ledger.addIfRelevant keys chain now incoming block update) := by
  have read : Faultless (get : LedgerOp Ledger) := fun _ => rfl
  unfold Ledger.addIfRelevant
  refine bind read fun l => ?_
  split
  · exact answer _
  refine bind (ask _) fun relevant => ?_
  split
  · exact answer _
  exact bind (addEntry _ _ _) fun _ => answer _

/-- Syncing a record is faultless. -/
theorem sync (keys : KeyView) (chain : ChainView) (now : Int64) (r : Record)
    (block : Option Block) : Faultless (Ledger.sync keys chain now r block) := by
  unfold Ledger.sync
  refine bind (addIfRelevant _ _ _ _ _ _) fun taken => ?_
  split
  · exact fun _ => rfl
  · exact answer _

/-- A loop whose body never stops with a fault does not. -/
theorem foldlM {f : β → α → LedgerOp β} (hf : ∀ b a, Faultless (f b a)) :
    ∀ (items : List α) (b : β), Faultless (items.foldlM f b)
  | [], b => answer b
  | a :: rest, b => bind (hf b a) fun b => foldlM hf rest b

end Faultless

/-! ## Followers -/

/-- A ledger and the blocks of the chain it follows, of which the tip comes first. -/
structure Follower where
  ledger : Ledger
  blocks : List Block

namespace Follower

/-- What may happen next. -/
inductive Event
  /-- A block is connected. -/
  | connect (block : Block)
  /-- The tip is disconnected. -/
  | disconnect
  /-- A record is seen that is in no block yet. -/
  | announce (r : Record)
  /-- An entry is removed. -/
  | erase (hash : Hash256)
  /-- The spending keys have been unlocked. -/
  | unlock
  /-- The witnesses are forgotten. -/
  | clearWitnesses

/-- Takes in records one after the other, each of which the ledger may refuse, up to the first
fault. -/
def takeIn (s : Surroundings) (block : Option Block) :
    List Record → Ledger → Option WitnessFault × Ledger
  | [], l => (none, l)
  | r :: rest, l =>
    let (outcome, l) := Ledger.sync s.keys s.chain.toChainView s.now r block l
    match faultOf outcome with
    | some fault => (some fault, l)
    | none => takeIn s block rest l

/-- Moves the tip to a block at a height, with the tree as it was before the block, or back from
there. -/
def moveTip (height : Nat) (tree : NoteTree) (block : Block) (added : Bool) (l : Ledger) :
    Option WitnessFault × Ledger :=
  let (outcome, l) :=
    Ledger.tipOn tree (Ledger.chainTip ⟨height, block.hash, block.time⟩ block added) l
  (faultOf outcome, l)

/-- What becomes of a follower, and the fault if there is one. From a chain without blocks none is
disconnected. -/
def step (s : Surroundings) : Event → Follower → Option WitnessFault × Follower
  | .connect block, ⟨l, blocks⟩ =>
    let taken := takeIn s (some block) block.records l
    match taken.1 with
    | some fault => (some fault, ⟨taken.2, block :: blocks⟩)
    | none =>
      let moved := moveTip blocks.length (treeAfter blocks) block true taken.2
      (moved.1, ⟨moved.2, block :: blocks⟩)
  | .disconnect, ⟨l, []⟩ => (none, ⟨l, []⟩)
  | .disconnect, ⟨l, block :: blocks⟩ =>
    let moved := moveTip blocks.length (treeAfter blocks) block false l
    (moved.1, ⟨moved.2, blocks⟩)
  | .announce r, ⟨l, blocks⟩ =>
    let taken := takeIn s none [r] l
    (taken.1, ⟨taken.2, blocks⟩)
  | .erase hash, ⟨l, blocks⟩ => (none, ⟨(l.erase hash).2, blocks⟩)
  | .unlock, ⟨l, blocks⟩ => (none, ⟨l.deriveNullifiers s.keys, blocks⟩)
  | .clearWitnesses, ⟨l, blocks⟩ => (none, ⟨l.clearWitnesses, blocks⟩)

/-- The event can come next: the records it brings are among those known, and the tree has room for
a block. -/
def Event.Fits (known : Record → Prop) (blocks : List Block) : Event → Prop
  | .connect block => (∀ r ∈ block.records, known r) ∧ HasRoom (block :: blocks)
  | .announce r => known r
  | .disconnect | .erase _ | .unlock | .clearWitnesses => True

/-- What a run leads to that brings no other records than those known and has not stopped with a
fault. -/
inductive Reached (known : Record → Prop) (settings : Settings) (store : Store) : Follower → Prop
  /-- A run starts from an empty ledger beside an empty chain. -/
  | start : Reached known settings store ⟨Ledger.empty settings store, []⟩
  /-- It goes on with an event that can come next. -/
  | step {f : Follower} {s : Surroundings} {event : Event} :
    Reached known settings store f → event.Fits known f.blocks → (step s event f).1 = none →
    Reached known settings store (step s event f).2

/-! ## The invariant -/

variable {known : Record → Prop}

/-- A leaf of a record that is known, for all that can be told from the hash of a record. -/
def LeafOfHash (known : Record → Prop) (r : Record) (leaf : NoteLeaf) : Prop :=
  ∃ r', known r' ∧ r'.hash = r.hash ∧ leaf ∈ r'.noteLeaves

/-- The ledger's witnesses are those of the last blocks of the chain, for all of which the tree has
had room. -/
structure InStep (known : Record → Prop) (f : Follower) : Prop where
  witnessed : Ledger.Witnessed (LeafOfHash known) known (f.blocks.map Block.noteLeaves) f.ledger
  room : HasRoom f.blocks

/-- The empty ledger is in step with a chain that has no blocks. -/
theorem inStep_start (settings : Settings) (store : Store) :
    InStep known ⟨Ledger.empty settings store, []⟩ := by
  have unheld : ∀ {hash e}, Ledger.entry? (Ledger.empty settings store) hash ≠ some e :=
    fun h => nomatch h
  exact ⟨⟨Nat.zero_le _, fun _ _ he => absurd he unheld, fun _ _ he => absurd he unheld⟩,
    hasRoom_iff.2 (Nat.zero_le _)⟩

/-- Nothing stops records from being taken in, and what taking in each of them keeps is kept. -/
theorem takeIn_keeps {I : Ledger → Prop} (s : Surroundings) (block : Option Block) :
    ∀ (records : List Record) {l : Ledger},
      (∀ r ∈ records, Keeps I (Ledger.sync s.keys s.chain.toChainView s.now r block)) → I l →
      ∃ l', takeIn s block records l = (none, l') ∧ I l'
  | [], l, _, hl => ⟨l, rfl, hl⟩
  | r :: rest, l, hkeeps, hl => by
    have kept := hkeeps r List.mem_cons_self l hl
    have faultless := Faultless.sync s.keys s.chain.toChainView s.now r block l
    unfold takeIn
    cases hsync : Ledger.sync s.keys s.chain.toChainView s.now r block l with
    | mk outcome l₁ =>
      rw [hsync] at kept faultless
      dsimp only at faultless ⊢
      rw [faultless]
      exact takeIn_keeps s block rest (fun r' hr' => hkeeps r' (List.mem_cons_of_mem _ hr')) kept

/-- Records that are taken in leave the witnesses where they are. -/
theorem takeIn_spec {chain : List (List NoteLeaf)} (s : Surroundings) (block : Option Block)
    (records : List Record) {l : Ledger} (hknown : ∀ r ∈ records, known r)
    (hl : Ledger.Witnessed (LeafOfHash known) known chain l) :
    ∃ l', takeIn s block records l = (none, l') ∧
      Ledger.Witnessed (LeafOfHash known) known chain l' :=
  takeIn_keeps s block records
    (fun r hr => Ledger.keeps_witnessed_sync _ _ _ block (hknown r hr)) hl

/-- The next block is connected once its records have been taken in. Our notes in it hold one
witness then, and the others that hold any one more, up to the limit. -/
theorem connect_spec {l : Ledger} {blocks : List Block} {block : Block}
    (hl : Ledger.Witnessed (LeafOfHash known) known (blocks.map Block.noteLeaves) l)
    (hblock : ∀ r ∈ block.records, known r) (hroom : HasRoom (block :: blocks)) :
    ∃ l' tree, Ledger.connectBlock blocks.length block ⟨l, treeAfter blocks⟩ =
        (.ok (), ⟨l', tree⟩) ∧
      InStep known ⟨l', block :: blocks⟩ ∧ Ledger.Agree Entry.record l l' ∧
      l'.cacheSize = min (l.cacheSize + 1) l.settings.witnessLimit ∧
      ∀ location, l'.witnessesAt? location = (l.witnessesAt? location).map fun n =>
        if location ∈ block.noteLeaves.map (·.1) then 1
        else if n = 0 then 0 else min (n + 1) l.settings.witnessLimit := by
  have owned : ∀ leaf ∈ block.noteLeaves, Ledger.LeafOwned (LeafOfHash known) l leaf := by
    intro leaf hleaf e he
    obtain ⟨r, hr, hmem⟩ := Block.exists_record hleaf
    refine ⟨r, hblock r hr, ?_, hmem⟩
    rw [← Record.hash_of_mem_noteLeaves hmem]
    exact (hl.entries _ e he).1.symm
  obtain ⟨l', tree, hconnected, hl', same, size, lengths⟩ :=
    hl.connectBlock owned hroom.of_cons.treeOf ⟨_, hroom.treeOf⟩
  rw [List.length_map] at hconnected
  exact ⟨l', tree, hconnected, ⟨hl', hroom⟩, same, size, lengths⟩

/-- If the tree has room for its leaves, a block is connected without a fault, and the ledger is in
step with the longer chain. -/
theorem moveTip_connect {l : Ledger} {blocks : List Block} {block : Block}
    (hl : Ledger.Witnessed (LeafOfHash known) known (blocks.map Block.noteLeaves) l)
    (hblock : ∀ r ∈ block.records, known r) (hroom : HasRoom (block :: blocks)) :
    ∃ l', moveTip blocks.length (treeAfter blocks) block true l = (none, l') ∧
      InStep known ⟨l', block :: blocks⟩ := by
  obtain ⟨l', tree, hconnected, hf, -⟩ := connect_spec hl hblock hroom
  refine ⟨l', ?_, hf⟩
  unfold moveTip Ledger.tipOn Ledger.chainTip
  rw [if_pos rfl]
  dsimp only
  rw [hconnected]
  rfl

/-- The tip is disconnected, unless no witness is accounted for any more. -/
theorem disconnect_spec {l : Ledger} {blocks : List Block} {block : Block}
    (hf : InStep known ⟨l, block :: blocks⟩) (hsize : l.cacheSize ≠ 0) :
    ∃ l', Ledger.disconnectBlock blocks.length l = (.ok (), l') ∧ InStep known ⟨l', blocks⟩ := by
  obtain ⟨l', hdisconnected, hl'⟩ := hf.witnessed.disconnectBlock hsize
  rw [List.length_map] at hdisconnected
  exact ⟨l', hdisconnected, hl', hf.room.of_cons⟩

/-- As long as witnesses are kept at all, the tip is disconnected without a fault, and the ledger is
in step with the chain without it. -/
theorem moveTip_disconnect {l : Ledger} {blocks : List Block} {block : Block}
    (hf : InStep known ⟨l, block :: blocks⟩) (hsize : l.cacheSize ≠ 0) :
    ∃ l', moveTip blocks.length (treeAfter blocks) block false l = (none, l') ∧
      InStep known ⟨l', blocks⟩ := by
  obtain ⟨l', hdisconnected, hf'⟩ := disconnect_spec hf hsize
  refine ⟨l', ?_, hf'⟩
  unfold moveTip Ledger.tipOn Ledger.chainTip
  rw [if_neg Bool.false_ne_true]
  dsimp only
  rw [hdisconnected]
  rfl

/-- Without such a witness, the tip is not disconnected. -/
theorem moveTip_underflow {l : Ledger} (hsize : l.cacheSize = 0) (height : Nat) (tree : NoteTree)
    (block : Block) :
    (moveTip height tree block false l).1 = some (.cacheUnderflow height) := by
  unfold moveTip Ledger.tipOn Ledger.chainTip
  rw [if_neg Bool.false_ne_true]
  dsimp only
  rw [Ledger.disconnectBlock_of_cacheSize_eq_zero hsize]
  rfl

/-- A block that can come next is connected. -/
theorem InStep.connect {f : Follower} (hf : InStep known f) (s : Surroundings) {block : Block}
    (hfits : (Event.connect block).Fits known f.blocks) :
    ∃ l', step s (.connect block) f = (none, ⟨l', block :: f.blocks⟩) ∧
      InStep known ⟨l', block :: f.blocks⟩ := by
  obtain ⟨hknown, hroom⟩ := hfits
  obtain ⟨l₁, htaken, hl₁⟩ := takeIn_spec s (some block) block.records hknown hf.witnessed
  obtain ⟨l₂, hmoved, hf₂⟩ := moveTip_connect hl₁ hknown hroom
  refine ⟨l₂, ?_, hf₂⟩
  unfold step
  dsimp only
  rw [htaken]
  dsimp only
  rw [hmoved]

/-- A block is to be disconnected, and no witness is accounted for any more. -/
def Underflows (event : Event) (f : Follower) : Prop :=
  event = .disconnect ∧ f.blocks ≠ [] ∧ f.ledger.cacheSize = 0

/-- One event: the ledger stays in step with the chain, unless its witnesses do not reach back. -/
theorem InStep.next {f : Follower} (hf : InStep known f) (s : Surroundings) {event : Event}
    (hfits : event.Fits known f.blocks) :
    (step s event f).1 = none ∧ ¬ Underflows event f ∧ InStep known (step s event f).2 ∨
      (step s event f).1 ≠ none ∧ Underflows event f := by
  obtain ⟨l, blocks⟩ := f
  have ⟨hl, hroom⟩ := hf
  cases event with
  | connect block =>
    obtain ⟨l', stepped, hf'⟩ := hf.connect s hfits
    rw [stepped]
    exact .inl ⟨rfl, nofun, hf'⟩
  | disconnect =>
    cases blocks with
    | nil => exact .inl ⟨rfl, fun h => h.2.1 rfl, hl, hroom⟩
    | cons block blocks =>
      by_cases hsize : l.cacheSize = 0
      · refine .inr ⟨?_, rfl, nofun, hsize⟩
        show (moveTip blocks.length (treeAfter blocks) block false l).1 ≠ none
        rw [moveTip_underflow hsize]
        exact nofun
      · obtain ⟨l', hmoved, hf'⟩ := moveTip_disconnect hf hsize
        have stepped : step s .disconnect ⟨l, block :: blocks⟩ = (none, ⟨l', blocks⟩) := by
          unfold Follower.step
          dsimp only
          rw [hmoved]
        rw [stepped]
        exact .inl ⟨rfl, fun h => hsize h.2.2, hf'⟩
  | announce r =>
    obtain ⟨l', htaken, hl'⟩ := takeIn_spec s none [r]
      (fun r' hr' => (List.mem_singleton.1 hr') ▸ hfits) hl
    have stepped : step s (.announce r) ⟨l, blocks⟩ = (none, ⟨l', blocks⟩) := by
      unfold Follower.step
      dsimp only
      rw [htaken]
    rw [stepped]
    exact .inl ⟨rfl, nofun, hl', hroom⟩
  | erase hash => exact .inl ⟨rfl, nofun, hl.erase hash, hroom⟩
  | unlock => exact .inl ⟨rfl, nofun, hl.deriveNullifiers s.keys, hroom⟩
  | clearWitnesses => exact .inl ⟨rfl, nofun, hl.clearWitnesses, hroom⟩

/-- Every follower that is reached is in step. -/
theorem Reached.inStep {settings : Settings} {store : Store} {f : Follower}
    (hf : Reached known settings store f) : InStep known f := by
  induction hf with
  | start => exact inStep_start _ _
  | step _ hfits hnone ih =>
    rcases ih.next _ hfits with ⟨-, -, h⟩ | ⟨h, -⟩
    · exact h
    · exact absurd hnone h

/-- A run goes on with every event that can come next, unless its witnesses do not reach back. -/
theorem Reached.next {settings : Settings} {store : Store} {f : Follower}
    (hf : Reached known settings store f) (s : Surroundings) {event : Event}
    (hfits : event.Fits known f.blocks) (hnot : ¬ Underflows event f) :
    Reached known settings store (Follower.step s event f).2 := by
  rcases hf.inStep.next s hfits with ⟨hnone, -⟩ | ⟨-, h⟩
  · exact .step hf hfits hnone
  · exact absurd h hnot

/-! ## The witnesses of a run -/

/-- Witnesses that have one root agree on it, as soon as there is one. -/
theorem commonRoot?_eq_some {witnesses : List (Option NoteWitness)} {root : Hash256}
    (hroot : ∀ w, some w ∈ witnesses → w.root sproutHash = root)
    (hsome : ∃ w, some w ∈ witnesses) : commonRoot? witnesses = some root := by
  have same : ∀ root' ∈ (witnesses.filterMap id).map (Witness.root sproutHash), root' = root := by
    intro root' hmem
    obtain ⟨w, hw, rfl⟩ := List.mem_map.1 hmem
    obtain ⟨a, ha, rfl⟩ := List.mem_filterMap.1 hw
    exact hroot w ha
  unfold commonRoot?
  split
  · next hnil =>
    obtain ⟨w, hw⟩ := hsome
    have hw : w ∈ witnesses.filterMap id := List.mem_filterMap.2 ⟨some w, hw, rfl⟩
    rw [List.map_eq_nil_iff.1 hnil] at hw
    cases hw
  · next first rest hcons =>
    rw [hcons] at same
    obtain rfl := same first List.mem_cons_self
    rw [if_pos]
    exact List.all_eq_true.2 fun root' hmem => by
      rw [same root' (List.mem_cons_of_mem _ hmem)]
      exact beq_self_eq_true _

/-- The newest witness of every note is one in the tree after the tip, at a leaf with its place. -/
theorem InStep.witnessesNote {f : Follower} (hf : InStep known f) {hash : Hash256} {e : Entry}
    (he : f.ledger.entry? hash = some e) {location : NoteLocation} {d : NoteData}
    (hd : e.notes.get? location = some d) {w : NoteWitness} (hw : d.witnesses.head? = some w) :
    WitnessesNote (LeafOfHash known e.record) (chainLeaves f.blocks) location w :=
  (hf.witnessed.notes hash e he location d hd).2.head hw

/-- Witnesses follow the chain. Whatever happens next, it stops with a fault exactly if a block is
to be disconnected and no witness is accounted for any more. The newest witness of every note has
the root of the tree after the tip, and at its position is a leaf with the place of the note; the
leaf is a commitment of the note's own record if there is no other record with the same hash but
other commitments. So all witnesses that are asked for agree on the root of the tree. -/
theorem witnesses_follow {settings : Settings} {store : Store} {f : Follower}
    (hf : Reached known settings store f) :
    (∀ s event, event.Fits known f.blocks →
      ((step s event f).1 ≠ none ↔
        event = .disconnect ∧ f.blocks ≠ [] ∧ f.ledger.cacheSize = 0)) ∧
    (∀ hash e, f.ledger.entry? hash = some e → ∀ location d, e.notes.get? location = some d →
      ∀ w, d.witnesses.head? = some w →
        w.root sproutHash = (treeAfter f.blocks).root sproutHash ∧
        ∃ position commitment, w.position? = some position ∧
          (chainLeaves f.blocks)[position]? = some (location, commitment) ∧
          ((∀ r, known r → r.hash = e.record.hash → r.noteLeaves = e.record.noteLeaves) →
            (location, commitment) ∈ e.record.noteLeaves)) ∧
    ∀ locations, (∃ w, some w ∈ f.ledger.newestWitnesses locations) →
      commonRoot? (f.ledger.newestWitnesses locations) =
        some ((treeAfter f.blocks).root sproutHash) := by
  have inStep := hf.inStep
  refine ⟨fun s event hfits => ?_, fun hash e he location d hd w hw => ?_, fun locations => ?_⟩
  · rcases inStep.next s hfits with ⟨hnone, hnot, -⟩ | ⟨hfault, hunder⟩
    · exact ⟨fun h => absurd hnone h, fun h => absurd h hnot⟩
    · exact ⟨fun _ => hunder, fun _ => hfault⟩
  · have witnesses := inStep.witnessesNote he hd hw
    obtain ⟨position, commitment, hposition, hleaf, r, hr, hhash, hmem⟩ := witnesses.position?
    refine ⟨witnesses.root inStep.room.treeOf, position, commitment, hposition, hleaf, ?_⟩
    intro same
    rwa [← same r hr hhash]
  · refine commonRoot?_eq_some fun w hw => ?_
    obtain ⟨location, -, hw⟩ := List.mem_map.1 hw
    obtain ⟨d, hd, hw⟩ := Option.bind_eq_some_iff.1 hw
    obtain ⟨e, he, hd⟩ := Option.bind_eq_some_iff.1 hd
    exact (inStep.witnessesNote he hd hw).root inStep.room.treeOf

/-! ## Two short runs

Joinsplits do not count for the hash of a transparent transaction. So one of them can be announced
and another one be in the block. -/

/-- Joinsplits count for the hash of a shielded transaction only. -/
theorem hash_withJoinSplits {t : TxBody} (ht : Version.isShielded t.version = false)
    (joinSplits : List JoinSplit) : { t with joinSplits }.hash = t.hash := by
  have omitted : ∀ t' : TxBody, t'.version = t.version → t'.encodeShielded = [] := by
    intro t' hv
    unfold TxBody.encodeShielded
    rw [hv, ht]
    rfl
  refine congrArg sha256d ?_
  unfold TxBody.encode
  rw [omitted { t with joinSplits } rfl, omitted t rfl]
  rfl

/-- A transparent transaction with a joinsplit that produces these commitments. -/
def transparentWith (first second : UInt8) : Transaction :=
  { TxBody.blank with
    joinSplits := [{ JoinSplit.blank false with
      commitments := (Bytes.filled 32 first, Bytes.filled 32 second) }] }.freeze

/-- Its version leaves joinsplits out of the hash, so the transaction has the hash of the blank one.
-/
theorem hash_transparentWith {first second : UInt8} :
    (transparentWith first second).hash = TxBody.blank.hash :=
  hash_withJoinSplits rfl _

/-- The place of the first note, in any of these. -/
def exampleNote : NoteLocation := ⟨(transparentWith 0x11 0x12).hash, 0, 0⟩

/-- Keys that the note with one commitment belongs to. -/
def exampleSurroundings : Surroundings where
  keys := (Simulation.Keys.fresh.addNote (Bytes.filled 32 0x11) default 5).view
  chain := Simulation.Chain.empty.source
  now := 0

/-- A block with one transaction. -/
def blockOf (tx : Transaction) : Block := ⟨Bytes.filled 32 0xb0, 0, [tx], []⟩

/-- An empty ledger beside an empty chain. -/
def beginning : Follower := ⟨Ledger.empty Settings.default Store.empty, []⟩

/-- The transaction with our note is in the first block. -/
def confirmed : Option WitnessFault × Follower :=
  step exampleSurroundings (.connect (blockOf (transparentWith 0x11 0x12))) beginning

/-- The transaction with our note is announced, and another one is in the first block. -/
def replaced : Option WitnessFault × Follower :=
  step exampleSurroundings (.connect (blockOf (transparentWith 0x21 0x22)))
    (step exampleSurroundings (.announce (.transaction (transparentWith 0x11 0x12))) beginning).2

/-- The ledger that has connected the block of the note is reached. -/
theorem reached_confirmed : Reached (fun _ => True) Settings.default Store.empty confirmed.2 := by
  have room : HasRoom [blockOf (transparentWith 0x11 0x12)] := by
    rw [hasRoom_iff]
    decide +kernel
  exact Reached.start.next _ ⟨fun _ _ => trivial, room⟩ nofun

/-- The ledger that has replaced the block of the note by another one is reached. -/
theorem reached_replaced : Reached (fun _ => True) Settings.default Store.empty replaced.2 := by
  have room : HasRoom [blockOf (transparentWith 0x21 0x22)] := by
    rw [hasRoom_iff]
    decide +kernel
  have announced : Reached (fun _ => True) Settings.default Store.empty
      (step exampleSurroundings (.announce (.transaction (transparentWith 0x11 0x12)))
        beginning).2 := Reached.start.next _ trivial nofun
  exact announced.next _ ⟨fun _ _ => trivial, room⟩ nofun

/-- In the first block, the transaction gives our note a witness, with the root of the tree. -/
theorem witnesses_follow_confirmed :
    Reached (fun _ => True) Settings.default Store.empty confirmed.2 ∧
      (∃ w, some w ∈ confirmed.2.ledger.newestWitnesses [exampleNote]) ∧
      commonRoot? (confirmed.2.ledger.newestWitnesses [exampleNote]) =
        some ((treeAfter confirmed.2.blocks).root sproutHash) := by
  have witnessed : ∃ w, some w ∈ confirmed.2.ledger.newestWitnesses [exampleNote] := by
    have computed :
        (confirmed.2.ledger.newestWitnesses [exampleNote]).any Option.isSome = true := by
      decide +kernel
    obtain ⟨witness?, hmem, hsome⟩ := List.any_eq_true.1 computed
    obtain ⟨w, rfl⟩ := Option.isSome_iff_exists.1 hsome
    exact ⟨w, hmem⟩
  obtain ⟨-, -, agreed⟩ := witnesses_follow reached_confirmed
  exact ⟨reached_confirmed, witnessed, agreed _ witnessed⟩

/-- Without the premise on records with the same hash, the leaf need not be a commitment of the
note's own record. Of two transactions with one hash the first is announced, and the second is in
the first block. Then our note in the first one has a witness, but of a commitment of the second. -/
theorem witness_of_namesake :
    (transparentWith 0x21 0x22).hash = exampleNote.hash ∧
      Reached (fun _ => True) Settings.default Store.empty replaced.2 ∧
      ∃ e d w, replaced.2.ledger.entry? exampleNote.hash = some e ∧
        e.notes.get? exampleNote = some d ∧ d.witnesses.head? = some w ∧ w.position? = some 0 ∧
        (chainLeaves replaced.2.blocks)[0]? = some (exampleNote, Bytes.filled 32 0x21) ∧
        (exampleNote, Bytes.filled 32 0x21) ∉ e.record.noteLeaves := by
  have computed : ((replaced.2.ledger.entry? exampleNote.hash).bind fun e =>
      (e.notes.get? exampleNote).bind fun d => d.witnesses.head?.map fun w =>
        (w.position?, (chainLeaves replaced.2.blocks)[0]?,
          decide ((exampleNote, Bytes.filled 32 0x21) ∈ e.record.noteLeaves))) =
      some (some 0, some (exampleNote, Bytes.filled 32 0x21), false) := by decide +kernel
  obtain ⟨e, he, h⟩ := Option.bind_eq_some_iff.1 computed
  obtain ⟨d, hd, h⟩ := Option.bind_eq_some_iff.1 h
  obtain ⟨w, hw, h⟩ := Option.map_eq_some_iff.1 h
  obtain ⟨hposition, h⟩ := Prod.mk.inj h
  obtain ⟨hleaf, hmem⟩ := Prod.mk.inj h
  exact ⟨hash_transparentWith.trans hash_transparentWith.symm, reached_replaced, e, d, w, he, hd,
    hw, hposition, hleaf, of_decide_eq_false hmem⟩

end Follower
end ShieldedLedger
