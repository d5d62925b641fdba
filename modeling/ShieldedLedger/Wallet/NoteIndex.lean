import ShieldedLedger.Record.ShieldedProof
import ShieldedLedger.Wallet.Spending

/-!
# Our notes

Which outputs of a transaction's joinsplits are ours is for the keys to say (`findNotes`). The
ledger finds a note of ours by its nullifier (`Ledger.indexNotes`); nullifiers that could not be
derived while the spending keys were locked are filled in later (`Ledger.deriveNullifiers`).
-/

namespace ShieldedLedger

/-- Our notes among the outputs of a transaction. -/
def findNotes (keys : KeyView) (tx : Transaction) : NoteMap :=
  SortedMap.ofList (tx.body.joinSplits.zipIdx.flatMap fun (js, index) =>
    let signatureHash := js.signatureHash tx.body.joinSplitKey
    (List.range js.commitmentList.length).filterMap fun n =>
      (keys.decryptNote? tx index n signatureHash).map fun found =>
        (⟨tx.hash, UInt64.ofNat index, UInt8.ofNat n⟩,
          NoteData.fresh found.address found.nullifier))

/-- Our notes among the outputs of a record; a certificate has none. -/
def Record.findNotes (keys : KeyView) : Record → NoteMap
  | .transaction tx => ShieldedLedger.findNotes keys tx
  | .certificate _ => SortedMap.empty

namespace NoteMap

/-- Fills in the nullifiers that are not known and that the keys can derive. -/
def deriveNullifiers (notes : NoteMap) (keys : KeyView) (tx : Transaction) : NoteMap :=
  notes.mapValues fun location d =>
    if d.nullifier.isNone && keys.hasSpendingKey d.address then
      { d with nullifier := keys.nullifierOf? d.address tx location }
    else d

end NoteMap

namespace Ledger

/-- Adds the notes that have a nullifier to the index. -/
def indexNotes (l : Ledger) (notes : NoteMap) : Ledger :=
  { l with noteIndex := notes.toList.foldl (fun index (location, d) =>
      match d.nullifier with
      | none => index
      | some nullifier => index.insert nullifier location) l.noteIndex }

/-- Adds the notes of the entry with a hash to the index. -/
def indexEntry (l : Ledger) (hash : Hash256) : Ledger :=
  match l.entry? hash with
  | none => l
  | some e => l.indexNotes e.notes

/-- Derives the nullifiers that were missing while the spending keys were locked, and renews the
index. -/
def deriveNullifiers (l : Ledger) (keys : KeyView) : Ledger :=
  let l := l.mapEntries fun e =>
    match e.record with
    | .transaction tx => { e with notes := e.notes.deriveNullifiers keys tx }
    | .certificate _ => e
  l.entries.values.foldl (fun l e => l.indexNotes e.notes) l

/-- Where our note with a nullifier is. -/
def noteWithNullifier? (l : Ledger) (nullifier : Hash256) : Option NoteLocation :=
  l.noteIndex.get? nullifier

/-- True if a record reveals the nullifier of one of our notes. -/
def revealsOurs (l : Ledger) (r : Record) : Bool := r.nullifiers.any l.noteIndex.contains

/-- Which notes a listing of decrypted notes gives: those received at an address, if one is given,
of entries at least so deep. Notes are unspendable without a spending key. -/
structure NoteQuery where
  address : Option PaymentAddress
  minDepth : Int
  ignoreSpent : Bool
  ignoreUnspendable : Bool

/-- True if a query gives a note of an entry that is deep enough. -/
def admitsNote (l : Ledger) (keys : KeyView) (chain : ChainView) (q : NoteQuery) (d : NoteData) :
    Bool :=
  q.address.all (· == d.address) &&
    !(q.ignoreSpent && d.nullifier.any (l.isNullifierSpent chain)) &&
    !(q.ignoreUnspendable && !keys.hasSpendingKey d.address)

/-- The decrypted notes a query gives. A note the keys cannot decrypt is left out. -/
def decryptedNotes (l : Ledger) (keys : KeyView) (chain : ChainView) (q : NoteQuery) :
    List LocatedNote :=
  l.entries.values.flatMap fun e =>
    match e.record with
    | .certificate _ => []
    | .transaction tx =>
      if l.depthOf chain e < q.minDepth then []
      else e.notes.toList.filterMap fun (location, d) =>
        if l.admitsNote keys chain q d then
          (keys.plaintextOf? d.address tx location).map fun plaintext =>
            ⟨location, d.address, plaintext⟩
        else none

end Ledger
end ShieldedLedger
