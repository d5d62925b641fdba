import ShieldedLedger.Settings
import ShieldedLedger.Wallet.Store
import ShieldedLedger.Wallet.Views

/-!
# The ledger

A `Ledger` is the wallet's whole state: the entries, who spends what, the index of our notes by
nullifier, the locked outputs, the witness cache size and the store. Operations that can fail are
`LedgerOp`s: they return the ledger they leave behind whether they succeed or not. A failure is
either an error the caller is told about (`LedgerError`) or a broken promise about the order of
chain updates (`WitnessFault`), after which the ledger must not be used.
-/

namespace ShieldedLedger

/-- Why an operation is refused. -/
inductive LedgerError
  /-- The outputs that may be used do not reach the target. -/
  | insufficientFunds (target : Amount) (onlyCoinbase needCoinbase : Bool)
  /-- A preselected reference names no output in the ledger. -/
  | notWalletOutput (outpoint : OutPoint)
  /-- There is no entry with this hash. -/
  | unknownEntry (hash : Hash256)
  /-- The chain source does not have the block, or the tree before it. -/
  | blockUnavailable (height : Int)
  /-- A sum cannot be given. -/
  | value (error : ValueError)
  /-- The commitment tree takes no more leaves. -/
  | treeFull
  /-- The store refused. -/
  | store (error : StoreError)
deriving DecidableEq

/-- What a caller is told about a full commitment tree. -/
def treeFullMessage : String := "commitment tree is full"

/-- The kind of error, as reports name it. -/
def LedgerError.name : LedgerError → String
  | insufficientFunds .. => "InsufficientFunds"
  | notWalletOutput _ => "InvalidPreselectedInput"
  | unknownEntry _ => "UnknownEntry"
  | blockUnavailable _ => "BlockUnavailable"
  | value _ => "Value"
  | treeFull => "Tree"
  | store _ => "Store"

/-- What went wrong, in words. -/
def LedgerError.message : LedgerError → String
  | insufficientFunds target _ _ =>
    "insufficient funds: " ++ toString target.toInt ++ " requested"
  | notWalletOutput outpoint =>
    "preselected input " ++ outpoint.display ++ " is not a wallet output"
  | unknownEntry hash => "no ledger entry for " ++ hash.display
  | blockUnavailable height =>
    "block at height " ++ toString height ++ " is not available from the chain source"
  | value error => "value error: " ++ error.message
  | treeFull => "commitment tree error: " ++ treeFullMessage
  | store error => "store error: " ++ error.message

/-- A chain update that does not fit the witnesses. -/
inductive WitnessFault
  /-- A block is disconnected for which no witnesses are cached any more. -/
  | cacheUnderflow (height : Int)
  /-- A note's witness is valid for another height than the update expects. -/
  | heightMismatch (found expected : Int)
  /-- A note holds more witnesses than the cache size. -/
  | tooManyWitnesses
deriving DecidableEq

/-- What is wrong, in words. -/
def WitnessFault.message : WitnessFault → String
  | cacheUnderflow height =>
    "witness cache underflow while disconnecting height " ++ toString height
  | heightMismatch found expected =>
    "witness height " ++ toString found ++ " is neither unset nor " ++ toString expected
  | tooManyWitnesses => "note holds more witnesses than the cache size"

/-- How an operation fails: it is refused, or it was not called as promised. -/
inductive Failure
  | error (error : LedgerError)
  | fault (fault : WitnessFault)
deriving DecidableEq

/-- The wallet's ledger. The records that claim an output or a note are listed in the order they
were registered; locked coins are kept out of coin selection. -/
structure Ledger where
  entries : SortedMap Hash256 Entry
  spenders : SortedMap SpendKey (List Hash256)
  /-- Our notes, by nullifier. -/
  noteIndex : SortedMap Hash256 NoteLocation
  lockedCoins : SortedSet OutPoint
  /-- The place in the order of insertion that the next new entry takes. -/
  nextOrder : Int
  /-- How many blocks of witness history a note may hold at present. -/
  cacheSize : Nat
  /-- When the next rebroadcast is due; 0 before the first was scheduled. -/
  nextResend : Int64
  lastResend : Int64
  settings : Settings
  store : Store

/-- An operation on the ledger that may fail, and leaves a ledger behind in any case. -/
abbrev LedgerOp := ExceptT Failure (StateM Ledger)

namespace Ledger

/-- An empty ledger. -/
def empty (settings : Settings) (store : Store) : Ledger where
  entries := SortedMap.empty
  spenders := SortedMap.empty
  noteIndex := SortedMap.empty
  lockedCoins := SortedMap.empty
  nextOrder := 0
  cacheSize := 0
  nextResend := 0
  lastResend := 0
  settings := settings
  store := store

/-- Runs an operation. -/
def run {α : Type} (l : Ledger) (op : LedgerOp α) : Except Failure α × Ledger := op l

/-- The entry with a hash. -/
def entry? (l : Ledger) (hash : Hash256) : Option Entry := l.entries.get? hash

/-- The output a reference names, if the ledger holds its record. -/
def output? (l : Ledger) (outpoint : OutPoint) : Option TxOut :=
  (l.entry? outpoint.hash).bind fun e => e.record.output? outpoint.index

/-- The note at a location, if the ledger holds it. -/
def note? (l : Ledger) (location : NoteLocation) : Option NoteData :=
  (l.entry? location.hash).bind fun e => e.notes.get? location

/-- All notes, in the order of their entries and locations. -/
def notes (l : Ledger) : List NoteData := l.entries.values.flatMap fun e => e.notes.values

/-- The records that claim a key, in the order they were registered. -/
def spendersOf (l : Ledger) (key : SpendKey) : List Hash256 := (l.spenders.get? key).getD []

/-- Changes the entry with a hash, if there is one. -/
def modifyEntry (l : Ledger) (hash : Hash256) (f : Entry → Entry) : Ledger :=
  { l with entries := l.entries.modify hash f }

/-- Changes every entry. -/
def mapEntries (l : Ledger) (f : Entry → Entry) : Ledger :=
  { l with entries := l.entries.mapValues fun _ e => f e }

/-- Changes every note. -/
def mapNotes (l : Ledger) (f : NoteData → NoteData) : Ledger :=
  l.mapEntries fun e => { e with notes := e.notes.mapValues fun _ d => f d }

/-- Changes every note in turn, handing a state along. -/
def mapNotesAccum {σ : Type} (l : Ledger) (f : σ → NoteData → NoteData × σ) (s : σ) :
    Ledger × σ :=
  let (entries, s) := l.entries.mapAccum (fun s _ e =>
    let (notes, s) := e.notes.mapAccum (fun s _ d => f s d) s
    ({ e with notes }, s)) s
  ({ l with entries }, s)

/-- Changes the note at a location, if there is one. -/
def modifyNote (l : Ledger) (location : NoteLocation) (f : NoteData → NoteData) : Ledger :=
  l.modifyEntry location.hash fun e => { e with notes := e.notes.modify location f }

/-- Forgets every memoized amount. -/
def markDirty (l : Ledger) : Ledger := l.mapEntries Entry.markDirty

/-! ## Locked outputs -/

/-- Keeps an output out of coin selection. -/
def lockCoin (l : Ledger) (outpoint : OutPoint) : Ledger :=
  { l with lockedCoins := SortedSet.add l.lockedCoins outpoint }

/-- Makes an output selectable again. -/
def unlockCoin (l : Ledger) (outpoint : OutPoint) : Ledger :=
  { l with lockedCoins := l.lockedCoins.erase outpoint }

/-- Makes every output selectable again. -/
def unlockAllCoins (l : Ledger) : Ledger := { l with lockedCoins := SortedMap.empty }

/-- True if an output is kept out of coin selection. -/
def isLocked (l : Ledger) (outpoint : OutPoint) : Bool := l.lockedCoins.contains outpoint

/-- A summary for inspection. -/
def inspect (l : Ledger) : String :=
  let keys := l.spenders.keys
  let prevouts := keys.countP SpendKey.isPrevout
  "TxLedger \x7b entries: " ++ toString l.entries.size ++ ", spends: " ++ toString prevouts ++
    ", nullifier_spends: " ++ toString (keys.length - prevouts) ++ ", locked_coins: \x7b" ++
    String.intercalate ", " (l.lockedCoins.keys.map OutPoint.inspect) ++
    "\x7d, witness_cache_size: " ++ toString l.cacheSize ++ " \x7d"

end Ledger

namespace LedgerOp

variable {α : Type}

/-- Refuses. -/
def refuse (e : LedgerError) : LedgerOp α := throw (.error e)

/-- Reads something off the ledger that may be an error. -/
def ask (f : Ledger → Except LedgerError α) : LedgerOp α := fun l =>
  match f l with
  | .ok a => (.ok a, l)
  | .error e => (.error (.error e), l)

/-- Changes the ledger. -/
def change (f : Ledger → Ledger) : LedgerOp Unit := fun l => (.ok (), f l)

end LedgerOp
end ShieldedLedger
