import ShieldedLedger.Record
import ShieldedLedger.Wallet.Ownership
import ShieldedLedger.Wallet.Note
import ShieldedLedger.Block

/-!
# Ledger entries

An entry is a record the wallet tracks together with what only its owner cares about: the link to
the block that holds it (`MerkleLink`), bookkeeping (`EntryInfo`), memoized amounts (`AmountMemo`)
and, for a transaction, our notes among its outputs. What an entry claims to spend are its spend
keys; two entries that claim the same key conflict.
-/

namespace ShieldedLedger

/-- Something a record claims to spend: a transparent output, or a shielded note by what it reveals
when spent. -/
inductive SpendKey
  | prevout (outpoint : OutPoint)
  | nullifier (nullifier : Hash256)
deriving DecidableEq

namespace SpendKey

/-- Outputs come before notes; within a kind the keys have their own order. -/
def order : SpendKey → SpendKey → Ordering
  | prevout a, prevout b => compare a b
  | prevout _, nullifier _ => .lt
  | nullifier _, prevout _ => .gt
  | nullifier a, nullifier b => compare a b

instance : Ord SpendKey := ⟨order⟩

instance : Std.TransOrd SpendKey where
  eq_swap {a b} := by
    cases a <;> cases b
    · exact @Std.OrientedCmp.eq_swap OutPoint compare _ _ _
    · rfl
    · rfl
    · exact @Std.OrientedCmp.eq_swap Hash256 compare _ _ _
  isLE_trans {a b c} h1 h2 := by
    cases a <;> cases b <;> cases c
    · exact @Std.TransCmp.isLE_trans OutPoint compare _ _ _ _ h1 h2
    · rfl
    · cases h2
    · rfl
    · cases h1
    · cases h1
    · cases h2
    · exact @Std.TransCmp.isLE_trans Hash256 compare _ _ _ _ h1 h2

instance : Std.LawfulEqOrd SpendKey where
  compare_self {a} := by
    cases a
    · exact @Std.ReflCmp.compare_self OutPoint compare _ _
    · exact @Std.ReflCmp.compare_self Hash256 compare _ _
  eq_of_compare {a b} h := by
    cases a <;> cases b
    · exact congrArg prevout (@Std.LawfulEqCmp.eq_of_compare OutPoint compare _ _ _ h)
    · cases h
    · cases h
    · exact congrArg nullifier (@Std.LawfulEqCmp.eq_of_compare Hash256 compare _ _ _ h)

/-- True for transparent outputs. -/
def isPrevout : SpendKey → Bool
  | prevout _ => true
  | nullifier _ => false

end SpendKey

/-- What a record claims to spend, in order: its inputs' references, then the nullifiers it
reveals. A coinbase and a certificate claim nothing. -/
def Record.spendKeys (r : Record) : List SpendKey :=
  if r.isCoinbase then []
  else r.inputs.map (fun i => .prevout i.prevout) ++ r.nullifiers.map .nullifier

/-! ## Links to blocks -/

/-- Where in a block a record is: the block, zero while the record is unconfirmed, the branch to its
Merkle root, and the position among its leaves, if it is known. -/
structure MerkleLink where
  block : Hash256
  branch : List Hash256
  index : Option Nat
deriving DecidableEq

namespace MerkleLink

/-- The link of an unconfirmed record. -/
def unlinked : MerkleLink := ⟨Bytes.zero, [], none⟩

/-- The link of the record with `hash` to `block`, without a position if the block does not hold
it. -/
def toBlock (block : Block) (hash : Hash256) : MerkleLink :=
  match block.leafIndex? hash with
  | some index => ⟨block.hash, block.merkleBranch index, some index⟩
  | none => ⟨block.hash, [], none⟩

/-- The position as a number, -1 when it is not known. -/
def indexNumber (l : MerkleLink) : Int :=
  match l.index with
  | some index => index
  | none => -1

/-- The block, the branch and the position. -/
def encode (l : MerkleLink) : List UInt8 :=
  l.block.toList ++ encodeList Bytes.toList l.branch ++ encodeI32 (Int32.ofInt l.indexNumber)

end MerkleLink

/-! ## Bookkeeping -/

/-- What only the owner of an entry cares about: annotations, the account the record was sent from,
times in seconds, whether the wallet made it, and its place in the order of insertion. -/
structure EntryInfo where
  annotations : SortedMap String String
  account : String
  timeReceived : UInt32
  /-- Whether `timeReceived` is the record's own time. -/
  timeIsRecordTime : Bool
  /-- The time to display; 0 if it is not set. -/
  timeSmart : UInt32
  fromMe : Bool
  /-- The position in the order of insertion; -1 before it. -/
  order : Int
deriving DecidableEq

namespace EntryInfo

/-- Nothing known yet. -/
def blank : EntryInfo where
  annotations := SortedMap.empty
  account := ""
  timeReceived := 0
  timeIsRecordTime := false
  timeSmart := 0
  fromMe := false
  order := -1

/-- The annotations as they are stored: the account, the order and the display time travel among
them. -/
def storedAnnotations (i : EntryInfo) : SortedMap String String :=
  let a := i.annotations.insert "fromaccount" i.account
  let a := if i.order = -1 then a else a.insert "n" (toString i.order)
  if i.timeSmart = 0 then a else a.insert "timesmart" (toString i.timeSmart.toNat)

/-- The stored annotations, the two words of the time received, and the flag. -/
def encode (i : EntryInfo) : List UInt8 :=
  encodeList (fun (a : String × String) => encodeText a.1 ++ encodeText a.2)
      i.storedAnnotations.toList ++
    encodeU32 (if i.timeIsRecordTime then 1 else 0) ++ encodeU32 i.timeReceived ++
    [if i.fromMe then 1 else 0]

/-- The time to display, or else the time received. -/
def displayTime (i : EntryInfo) : UInt32 := if i.timeSmart = 0 then i.timeReceived else i.timeSmart

/-- Takes over what conflicting entries share with the oldest of them. -/
def alignedWith (i oldest : EntryInfo) : EntryInfo :=
  { i with
    annotations := oldest.annotations
    account := oldest.account
    timeIsRecordTime := oldest.timeIsRecordTime
    timeSmart := oldest.timeSmart
    fromMe := oldest.fromMe }

end EntryInfo

/-! ## Memoized amounts -/

/-- An amount for each kind of ownership, where it has been computed. -/
structure OwnedAmounts where
  spendable : Option Amount
  watchOnly : Option Amount
deriving DecidableEq

/-- Amounts that have been computed before. They are forgotten whenever something they depend on may
have changed. What a record pays us is its credit; that of a coinbase that waits is immature, and
what is not spent of it is available. -/
structure AmountMemo where
  debit : OwnedAmounts
  credit : OwnedAmounts
  immature : OwnedAmounts
  available : OwnedAmounts
  change : Option Amount
deriving DecidableEq

namespace AmountMemo

/-- Nothing computed yet. -/
def blank : AmountMemo :=
  ⟨⟨none, none⟩, ⟨none, none⟩, ⟨none, none⟩, ⟨none, none⟩, none⟩

end AmountMemo

/-! ## Entries -/

/-- A record in the ledger, with its place in the chain, bookkeeping, memoized amounts and, if it is
a transaction, our notes among its outputs. -/
structure Entry where
  record : Record
  link : MerkleLink
  info : EntryInfo
  memo : AmountMemo
  notes : NoteMap

namespace Entry

/-- An unlinked entry about which nothing is known. -/
def ofRecord (record : Record) : Entry :=
  ⟨record, MerkleLink.unlinked, EntryInfo.blank, AmountMemo.blank, SortedMap.empty⟩

/-- The record's hash. -/
def hash (e : Entry) : Hash256 := e.record.hash

/-- What the entry claims to spend. -/
def spendKeys (e : Entry) : List SpendKey := e.record.spendKeys

/-- True for coinbases, whose outputs wait before they can be spent. -/
def matures (e : Entry) : Bool := e.record.isCoinbase

/-- Forgets the memoized amounts. -/
def markDirty (e : Entry) : Entry := { e with memo := AmountMemo.blank }

/-- Forgets the witnesses of the notes. -/
def clearWitnesses (e : Entry) : Entry :=
  { e with notes := e.notes.mapValues fun _ d => d.clearWitnesses }

/-- The stored form: the record, the link, the bookkeeping and, for a transaction, the notes. A
record without an encoding has none. -/
def encode? (e : Entry) : Option (List UInt8) :=
  let notes := match e.record with
    | .transaction _ => NoteMap.encode e.notes
    | .certificate _ => []
  e.record.encode?.map fun record => record ++ e.link.encode ++ e.info.encode ++ notes

end Entry
end ShieldedLedger
