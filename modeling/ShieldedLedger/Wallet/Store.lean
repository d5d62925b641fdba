import ShieldedLedger.Wallet.Entry

/-!
# The wallet's store

The store keeps the encoded entries, the witness cache size and the best block. Writes made inside
a batch are staged and take effect together when the batch is committed, or not at all. A store can
be told to refuse one kind of write.
-/

namespace ShieldedLedger

/-- Everything a store holds: the encoded entries and, once written, the size of the witness cache
and the best block the ledger is in step with. -/
structure StoreContents where
  entries : SortedMap Hash256 (List UInt8)
  cacheSize : Option Nat
  bestBlock : Option BlockLocator
deriving DecidableEq

/-- A kind of write. -/
inductive StoreWrite
  | entry
  | cacheSize
  | bestBlock
deriving DecidableEq

/-- What is written, in words. -/
def StoreWrite.name : StoreWrite → String
  | entry => "ledger entry"
  | cacheSize => "witness cache size"
  | bestBlock => "best block"

/-- Why the store refuses an operation. -/
inductive StoreError
  /-- A batch is open already. -/
  | batchOpen
  /-- No batch is open. -/
  | noBatch
  /-- A write of this kind failed. -/
  | writeFailed (write : StoreWrite)
  /-- The entry has no encoding. -/
  | unencodable
deriving DecidableEq

/-- The kind of error, as reports name it. -/
def StoreError.name : StoreError → String
  | batchOpen => "TxnActive"
  | noBatch => "NoTxn"
  | writeFailed _ => "WriteFailed"
  | unencodable => "Io"

/-- What went wrong, in words. -/
def StoreError.message : StoreError → String
  | batchOpen => "a store transaction is already open"
  | noBatch => "no store transaction is open"
  | writeFailed write => "failed to write " ++ write.name
  | unencodable => noPubkeyHashMessage

/-- A store with staged batches: what has taken effect, what the open batch will make of it, if one
is open, and the kind of write that is refused. -/
structure Store where
  committed : StoreContents
  staged : Option StoreContents
  refused : Option StoreWrite
deriving DecidableEq

namespace Store

/-- A store that holds nothing and refuses nothing. -/
def empty : Store := ⟨⟨SortedMap.empty, none, none⟩, none, none⟩

/-- True while a batch is open. -/
def inBatch (s : Store) : Bool := s.staged.isSome

/-- Opens a batch. -/
def openBatch (s : Store) : Except StoreError Store :=
  match s.staged with
  | some _ => .error .batchOpen
  | none => .ok { s with staged := some s.committed }

/-- Applies the open batch. -/
def commit (s : Store) : Except StoreError Store :=
  match s.staged with
  | some contents => .ok { s with committed := contents, staged := none }
  | none => .error .noBatch

/-- Drops the open batch. -/
def abort (s : Store) : Except StoreError Store :=
  match s.staged with
  | some _ => .ok { s with staged := none }
  | none => .error .noBatch

/-- Changes what the open batch holds, or without one what has taken effect. -/
def update (s : Store) (f : StoreContents → StoreContents) : Store :=
  match s.staged with
  | some contents => { s with staged := some (f contents) }
  | none => { s with committed := f s.committed }

/-- Fails if writes of this kind are refused. -/
def allow (s : Store) (write : StoreWrite) : Except StoreError Unit :=
  if s.refused = some write then .error (.writeFailed write) else .ok ()

/-- Writes an entry under its hash. -/
def writeEntry (s : Store) (hash : Hash256) (entry : Entry) : Except StoreError Store := do
  s.allow .entry
  match entry.encode? with
  | none => .error .unencodable
  | some bytes => .ok (s.update fun c => { c with entries := c.entries.insert hash bytes })

/-- Removes an entry. -/
def eraseEntry (s : Store) (hash : Hash256) : Store :=
  s.update fun c => { c with entries := c.entries.erase hash }

/-- Writes the witness cache size. -/
def writeCacheSize (s : Store) (size : Nat) : Except StoreError Store := do
  s.allow .cacheSize
  .ok (s.update fun c => { c with cacheSize := some size })

/-- Writes the best block. -/
def writeBestBlock (s : Store) (locator : BlockLocator) : Except StoreError Store := do
  s.allow .bestBlock
  .ok (s.update fun c => { c with bestBlock := some locator })

/-- Writes all entries, in order, up to the first that fails. -/
def writeEntries (s : Store) (entries : List (Hash256 × Entry)) : Except StoreError Store :=
  entries.foldlM (fun s e => s.writeEntry e.1 e.2) s

end Store
end ShieldedLedger
