import ShieldedLedger.Wallet.Ledger

/-!
# Who spends what

Of the records that claim an output or a note, one wins: the one confirmed lowest in the active
chain, or else the one registered first (`Ledger.activeSpender?`). An unconfirmed entry is
conflicted if another record wins something it claims, and the depth of an entry
(`Ledger.depthOf`) is its number of confirmations, 0 while unconfirmed and -1 while conflicted. It
is computed without bound, which is what 32-bit words give as long as they hold it.

New entries register what they claim (`Ledger.registerSpends`), and entries that claim the same
thing take over the bookkeeping of the oldest.
-/

namespace ShieldedLedger

/-- The first item that no other item is before. -/
def earliest? {α : Type} (before : α → α → Bool) : List α → Option α
  | [] => none
  | a :: rest => some (rest.foldl (fun best b => if before b best then b else best) a)

namespace Ledger

variable (l : Ledger) (chain : ChainView)

/-- The height of the entry's block, if that block is in the active chain. -/
def confirmedHeight? (e : Entry) : Option Int :=
  if e.link.block.isZero || e.link.index.isNone then none else chain.heightOf? e.link.block

/-- The entries registered for a key, each with its hash, in the order of registration. -/
def claimants (key : SpendKey) : List (Hash256 × Entry) :=
  (l.spendersOf key).filterMap fun hash => (l.entry? hash).map fun e => (hash, e)

/-- Height, order of insertion and hash of the claimants of a key in the active chain. -/
def confirmedClaims (key : SpendKey) : List (Int × Int × Hash256) :=
  (l.claimants key).filterMap fun (hash, e) =>
    (confirmedHeight? chain e).map fun height => (height, e.info.order, hash)

/-- The record that wins a key: the one confirmed lowest, or else the one inserted first. -/
def activeSpender? (key : SpendKey) : Option Hash256 :=
  let confirmed := earliest? (fun (a b : Int × Int × Hash256) =>
      compareLex (compareOn (·.1)) (compareLex (compareOn (·.2.1)) (compareOn (·.2.2))) a b == .lt)
    (l.confirmedClaims chain key)
  match confirmed with
  | some (_, _, hash) => some hash
  | none =>
    (earliest? (fun (a b : Int × Hash256) =>
        compareLex (compareOn (·.1)) (compareOn (·.2)) a b == .lt)
      ((l.claimants key).map fun (hash, e) => (e.info.order, hash))).map (·.2)

/-- True if another record wins something the entry claims. -/
def isConflicted (e : Entry) : Bool :=
  e.spendKeys.any fun key =>
    match l.activeSpender? chain key with
    | some winner => winner != e.hash
    | none => false

/-- The number of confirmations in the active chain; outside of it 0, or -1 if conflicted. -/
def depthOf (e : Entry) : Int :=
  match confirmedHeight? chain e with
  | some height => chain.tipHeight - height + 1
  | none => if l.isConflicted chain e then -1 else 0

/-- The depth of the entry with a hash. -/
def depth? (hash : Hash256) : Option Int := (l.entry? hash).map (l.depthOf chain)

/-- True if a record that claims the key is not conflicted. -/
def isClaimed (key : SpendKey) : Bool :=
  (l.claimants key).any fun (_, e) => l.depthOf chain e ≥ 0

/-- True if a record that spends the output is not conflicted. -/
def isSpent (outpoint : OutPoint) : Bool := l.isClaimed chain (.prevout outpoint)

/-- True if a record that reveals the nullifier is not conflicted. -/
def isNullifierSpent (nullifier : Hash256) : Bool := l.isClaimed chain (.nullifier nullifier)

/-- The other records that claim something the entry with this hash claims. -/
def conflicts (hash : Hash256) : SortedSet Hash256 :=
  match l.entry? hash with
  | none => SortedMap.empty
  | some e => SortedSet.ofKeys ((e.spendKeys.flatMap l.spendersOf).filter (· != hash))

/-! ## Registration -/

/-- The oldest of the entries with these hashes. -/
def oldest? (owners : List Hash256) : Option Entry :=
  earliest? (fun a b => a.info.order < b.info.order) (owners.filterMap l.entry?)

/-- Gives the entries with these hashes the bookkeeping of the oldest of them. -/
def alignInfo (owners : List Hash256) : Ledger :=
  match l.oldest? owners with
  | none => l
  | some oldest =>
    (owners.filter (· != oldest.hash)).foldl (fun l owner =>
      l.modifyEntry owner fun e => { e with info := e.info.alignedWith oldest.info }) l

/-- Registers a record for one key. If the key has several claimants then, their bookkeeping is
aligned and their memoized amounts are forgotten. -/
def registerSpend (hash : Hash256) (l : Ledger) (key : SpendKey) : Ledger :=
  let known := l.spendersOf key
  let owners := if known.contains hash then known else known ++ [hash]
  let l := { l with spenders := l.spenders.insert key owners }
  if owners.length > 1 then
    owners.foldl (fun l owner => l.modifyEntry owner Entry.markDirty) (l.alignInfo owners)
  else l

/-- Registers everything the entry with this hash claims. -/
def registerSpends (hash : Hash256) : Ledger :=
  match l.entry? hash with
  | none => l
  | some e => e.spendKeys.foldl (registerSpend hash) l

/-- Removes a record from the claimants of one key. -/
def withdrawSpend (hash : Hash256) (l : Ledger) (key : SpendKey) : Ledger :=
  let owners := (l.spendersOf key).filter (· != hash)
  { l with spenders := if owners.isEmpty then l.spenders.erase key
                       else l.spenders.insert key owners }

/-- Forgets the entry with this hash, what it claims and its notes. Answers whether there was
one. -/
def erase (hash : Hash256) : Bool × Ledger :=
  match l.entry? hash with
  | none => (false, l)
  | some e =>
    let l := e.spendKeys.foldl (withdrawSpend hash) { l with entries := l.entries.erase hash }
    (true, { l with
      noteIndex := l.noteIndex.filter fun _ location => location.hash != hash
      store := l.store.eraseEntry hash })

end Ledger
end ShieldedLedger
