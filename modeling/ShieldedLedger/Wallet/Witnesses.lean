import ShieldedLedger.Wallet.Ledger

/-!
# Witnesses under chain updates

Every note keeps a short history of witnesses, newest first, one for each block since it was found.
Connecting a block (`Ledger.connectBlock`) starts a new witness for every note, appends the block's
commitments to the tree and to the newest witnesses, and witnesses our own new notes. Disconnecting
a block (`Ledger.disconnectBlock`) drops the newest witness of every note, so a reorganization that
is not deeper than the histories can be undone.

Updates come in the order of heights. One that does not fit the witnesses is a `WitnessFault`. If
the tree, or the tree of a witness, takes no more leaves, the update stops there, and what it has
changed so far stays changed.
-/

namespace ShieldedLedger

/-- The commitments of a block in the order of the tree, each with the place of its note. -/
def Block.noteLeaves (b : Block) : List (NoteLocation × Hash256) :=
  b.transactions.flatMap fun tx =>
    tx.body.joinSplits.zipIdx.flatMap fun (js, index) =>
      js.commitmentList.zipIdx.map fun (commitment, n) =>
        (⟨tx.hash, UInt64.ofNat index, UInt8.ofNat n⟩, commitment)

namespace NoteData

/-- What is wrong with a note if its witnesses should be valid for the height `expected`, or for
none yet, and number at most `cacheSize`. -/
def fault? (d : NoteData) (cacheSize : Nat) (expected : Int) : Option WitnessFault :=
  if cacheSize < d.witnesses.length then some .tooManyWitnesses
  else if d.witnessHeight ≠ -1 ∧ d.witnessHeight ≠ expected then
    some (.heightMismatch d.witnessHeight expected)
  else none

/-- Starts a new witness as a copy of the newest, and keeps at most `limit` of them. -/
def openWitness (limit : Nat) (d : NoteData) : NoteData :=
  match d.witnesses with
  | [] => d
  | newest :: older => { d with witnesses := (newest :: newest :: older).take limit }

/-- Appends a leaf to the newest witness, if there is one; none if its tree takes no more. -/
def appendLeaf? (leaf : Hash256) (d : NoteData) : Option NoteData :=
  match d.witnesses with
  | [] => some d
  | newest :: older =>
    (newest.append? sproutHash leaf).map fun newest => { d with witnesses := newest :: older }

/-- Gives the note, found in the block at `height`, its first witness. -/
def withFirstWitness (witness : NoteWitness) (height : Int) (d : NoteData) : NoteData :=
  { d with witnesses := [witness], witnessHeight := height - 1 }

/-- Drops the newest witness, which is valid for `height`. -/
def dropWitness (height : Int) (d : NoteData) : NoteData :=
  { d with witnesses := d.witnesses.drop 1, witnessHeight := height - 1 }

/-- True if the note's witnesses are not valid for `height` yet. -/
def isBehind (height : Int) (d : NoteData) : Bool := d.witnessHeight < height

end NoteData

/-- A ledger and the commitment tree that its notes are witnessed in. -/
structure TipState where
  ledger : Ledger
  tree : NoteTree

/-- A chain update: it may fail, and leaves ledger and tree behind in any case. -/
abbrev TipOp := ExceptT Failure (StateM TipState)

namespace Ledger

/-! ## Connecting -/

/-- The first note behind `height` that does not fit the update to it. -/
def connectFault? (l : Ledger) (height : Int) : Option WitnessFault :=
  (l.notes.filter (·.isBehind height)).findSome? fun d => d.fault? l.cacheSize (height - 1)

/-- Starts a new witness for every note behind `height`, and lets the histories grow by one up to
the limit. -/
def openWitnesses (l : Ledger) (height : Int) : Ledger :=
  let limit := l.settings.witnessLimit
  let l := l.mapNotes fun d => if d.isBehind height then d.openWitness limit else d
  { l with cacheSize := if l.cacheSize < limit then l.cacheSize + 1 else l.cacheSize }

/-- Appends a leaf to the newest witness of every note behind `height`, up to the first that takes
no more. The second part tells whether there was none such. -/
def appendToNotes (l : Ledger) (height : Int) (leaf : Hash256) : Ledger × Bool :=
  l.mapNotesAccum (fun ok d =>
    if ok && d.isBehind height then
      match d.appendLeaf? leaf with
      | some d => (d, true)
      | none => (d, false)
    else (d, ok)) true

/-- True if a note of ours is at the location and behind `height`. -/
def needsWitness (l : Ledger) (location : NoteLocation) (height : Int) : Bool :=
  (l.note? location).any (·.isBehind height)

/-- Appends one leaf of the block at `height` to the tree and to the witnesses, and witnesses it if
its note is ours. -/
def appendBlockLeaf (height : Int) (leaf : NoteLocation × Hash256) : TipOp Unit := fun s =>
  match s.tree.append? sproutHash leaf.2 with
  | none => (.error (.error .treeFull), s)
  | some tree =>
    let ours := s.ledger.needsWitness leaf.1 height
    match s.ledger.appendToNotes height leaf.2 with
    | (l, false) => (.error (.error .treeFull), ⟨l, tree⟩)
    | (l, true) =>
      let l :=
        if ours then l.modifyNote leaf.1 (·.withFirstWitness (Witness.ofTree tree) height) else l
      (.ok (), ⟨l, tree⟩)

/-- Notes that every note behind `height` has caught up with it. -/
def settleWitnesses (l : Ledger) (height : Int) : Ledger :=
  l.mapNotes fun d => if d.isBehind height then { d with witnessHeight := height } else d

/-- Brings the witnesses up to date with a block connected at `height`, and appends its commitments
to the tree. -/
def connectBlock (height : Int) (block : Block) : TipOp Unit := do
  match (← get).ledger.connectFault? height with
  | some fault => throw (.fault fault)
  | none =>
    modify fun s => { s with ledger := s.ledger.openWitnesses height }
    block.noteLeaves.forM (appendBlockLeaf height)
    modify fun s => { s with ledger := s.ledger.settleWitnesses height }

/-! ## Disconnecting -/

/-- Why the block at `height` cannot be disconnected: no history is left, or one of the notes that
are not ahead of the height does not fit. -/
def disconnectFault? (l : Ledger) (height : Int) : Option WitnessFault :=
  if l.cacheSize = 0 then some (.cacheUnderflow height)
  else
    (l.notes.filter (·.isBehind (height + 1))).findSome? fun d => d.fault? l.cacheSize height

/-- Rolls the witnesses back past the block at `height`. -/
def dropWitnesses (l : Ledger) (height : Int) : Ledger :=
  let l := l.mapNotes fun d => if d.isBehind (height + 1) then d.dropWitness height else d
  { l with cacheSize := l.cacheSize - 1 }

/-- Rolls the witnesses back past the block disconnected at `height`. -/
def disconnectBlock (height : Int) : LedgerOp Unit := fun l =>
  match l.disconnectFault? height with
  | some fault => (.error (.fault fault), l)
  | none => (.ok (), l.dropWitnesses height)

/-- An update of the chain's tip: `block`, whose place is `index`, was connected, or disconnected
unless `added` is set. The tree is the one before the block, and it is left as the one after it if
the block was connected. -/
def chainTip (index : BlockIndex) (block : Block) (added : Bool) : TipOp Unit :=
  if added then connectBlock index.height block
  else fun s =>
    let (outcome, l) := disconnectBlock index.height s.ledger
    (outcome, { s with ledger := l })

/-! ## Reading and forgetting -/

/-- Forgets every witness. -/
def clearWitnesses (l : Ledger) : Ledger :=
  { l.mapEntries Entry.clearWitnesses with cacheSize := 0 }

/-- The newest witness of each note. -/
def newestWitnesses (l : Ledger) (locations : List NoteLocation) : List (Option NoteWitness) :=
  locations.map fun location => (l.note? location).bind fun d => d.witnesses.head?

end Ledger

/-- The root that all witnesses agree on, if there are any and they do. -/
def commonRoot? (witnesses : List (Option NoteWitness)) : Option Hash256 :=
  match (witnesses.filterMap id).map (Witness.root sproutHash) with
  | [] => none
  | root :: rest => if rest.all (· == root) then some root else none

end ShieldedLedger
