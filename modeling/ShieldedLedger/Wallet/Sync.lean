import ShieldedLedger.Wallet.Amounts
import ShieldedLedger.Wallet.NoteIndex

/-!
# Taking in records

A record, seen in a block or unconfirmed, is taken in if it concerns the wallet
(`Ledger.concerns`). A new entry gets its place in the order of insertion and registers what it
claims; one that is known is merged with what is new about it (`Entry.merge`). The entry is stored
before the ledger changes, so that a write that fails leaves everything as it was
(`Ledger.addEntry`).
-/

namespace ShieldedLedger

/-! ## Merging -/

/-- Notes found anew, each with the witnesses already cached for it. -/
def NoteMap.carryWitnesses (fresh stored : NoteMap) : NoteMap :=
  fresh.mapValues fun location d =>
    match stored.get? location with
    | none => d
    | some known => { d with witnesses := known.witnesses, witnessHeight := known.witnessHeight }

/-- The stored notes, or the ones found anew if there are any and they are not the same. -/
def NoteMap.merge (stored fresh : NoteMap) : NoteMap :=
  if fresh.isEmpty || fresh.sameNotes stored then stored else fresh.carryWitnesses stored

/-- Takes over the block of the incoming link if it names one, and its position if it has one. -/
def MerkleLink.merge (stored incoming : MerkleLink) : MerkleLink :=
  let block := if incoming.block.isZero then stored.block else incoming.block
  match incoming.index with
  | none => { stored with block }
  | some index => ⟨block, incoming.branch, some index⟩

namespace Entry

/-- Folds what `incoming` knows into an entry. -/
def merge (stored incoming : Entry) : Entry :=
  { stored with
    link := stored.link.merge incoming.link
    notes :=
      match stored.record with
      | .transaction _ => stored.notes.merge incoming.notes
      | .certificate _ => stored.notes
    info := { stored.info with fromMe := stored.info.fromMe || incoming.info.fromMe } }

/-- True if two entries of one record differ in what merging can change. -/
def differs (a b : Entry) : Bool :=
  a.link != b.link || !a.notes.sameNotes b.notes || a.info.fromMe != b.info.fromMe

/-- An entry about to be inserted: its place in the order is `order`, it was received `now`, and
it is displayed with the time of its block if that is known. -/
def received (e : Entry) (chain : ChainView) (now : Int64) (order : Int) : Entry :=
  { e with info := { e.info with
      timeReceived := now.toUInt64.toUInt32
      order := order
      timeSmart := ((chain.timeOf? e.link.block).getD now).toUInt64.toUInt32 } }

end Entry

namespace Ledger

variable (keys : KeyView) (chain : ChainView) (now : Int64)

/-- Stores an entry if `changed` is set, and then puts it into the ledger. -/
def putEntry (l : Ledger) (entry : Entry) (changed : Bool) : Except StoreError Ledger := do
  let store ← if changed then l.store.writeEntry entry.hash entry else .ok l.store
  return { l with entries := l.entries.insert entry.hash entry, store }

/-- Inserts an entry or merges it into the one with its hash. If the store refuses, nothing
changes. -/
def addEntry (incoming : Entry) : LedgerOp Unit := fun l =>
  let hash := incoming.hash
  let outcome :=
    match l.entry? hash with
    | none =>
      let entry := (incoming.received chain now l.nextOrder).markDirty
      (l.putEntry entry true).map fun (l : Ledger) =>
        { l with nextOrder := l.nextOrder + 1 }.registerSpends hash
    | some stored =>
      let merged := stored.merge incoming
      l.putEntry merged.markDirty (merged.differs stored)
  match outcome with
  | .error e => (.error (.error (.store e)), l)
  | .ok l => (.ok (), l.indexEntry hash)

/-! ## Relevance -/

/-- True if any output of a record is ours in any way. -/
def paysUs (r : Record) : Bool := r.outputs.any fun o => keys.ownership o.script != .foreign

/-- True if a record concerns the wallet: it is known already, holds one of `notes`, pays us,
reveals the nullifier of one of our notes, or spends one of our outputs. -/
def concerns (l : Ledger) (r : Record) (notes : NoteMap) : Except LedgerError Bool :=
  if l.entries.contains r.hash || !notes.isEmpty || paysUs keys r || l.revealsOurs r then .ok true
  else (l.recordDebit keys r .all).map fun debit => 0 < debit

/-- Adds or updates an entry, seen in `block` or unconfirmed, if its record concerns the wallet.
Answers whether it did. One that is known is left alone unless `update` is set. -/
def addIfRelevant (incoming : Entry) (block : Option Block) (update : Bool) : LedgerOp Bool := do
  let l ← get
  if l.entries.contains incoming.hash && !update then return false
  let notes := incoming.record.findNotes keys
  if !(← LedgerOp.ask (concerns keys · incoming.record notes)) then return false
  let incoming := if notes.isEmpty then incoming else { incoming with notes }
  let incoming :=
    match block with
    | none => incoming
    | some block => { incoming with link := MerkleLink.toBlock block incoming.hash }
  addEntry chain now incoming
  return true

/-! ## Notifications -/

/-- The records whose outputs or notes a record spends. -/
def affectedBy (l : Ledger) (r : Record) : List Hash256 :=
  r.inputs.map (·.prevout.hash) ++
    (r.nullifiers.filterMap l.noteWithNullifier?).map (·.hash)

/-- Forgets the memoized amounts of the entries a record spends from. -/
def markAffectedDirty (l : Ledger) (r : Record) : Ledger :=
  (l.affectedBy r).foldl (fun l hash => l.modifyEntry hash Entry.markDirty) l

/-- Takes in a record, seen in `block` or unconfirmed, if it concerns the wallet. -/
def sync (r : Record) (block : Option Block) : LedgerOp Unit := do
  if ← addIfRelevant keys chain now (Entry.ofRecord r) block true then
    LedgerOp.change (·.markAffectedDirty r)

/-! ## Persistence -/

/-- Stores every entry, the witness cache size and the best block as one batch. If any write is
refused, nothing is stored. -/
def setBestChain (locator : BlockLocator) : LedgerOp Unit := fun l =>
  let written := do
    let store ← l.store.openBatch
    let store ← store.writeEntries l.entries.toList
    let store ← store.writeCacheSize l.cacheSize
    let store ← store.writeBestBlock locator
    store.commit
  match written with
  | .error e => (.error (.error (.store e)), l)
  | .ok store => (.ok (), { l with store })

end Ledger
end ShieldedLedger
