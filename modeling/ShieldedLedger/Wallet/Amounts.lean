import ShieldedLedger.Wallet.Spending

/-!
# Amounts and balances

What a record spends of ours (debit), pays us (credit) and what of it is left. Every sum is
checked, and leaving the money range fails the query. The amounts of an entry are memoized, one for
each kind of ownership, until the entry is marked dirty: `Ledger.freshAmount` computes one from
scratch, `Ledger.amount` goes by the memo. A failed computation is not memoized, but what was
memoized before it stays.
-/

namespace ShieldedLedger

/-- Adds up the results of `f` in order, naming the quantity when the range is left. -/
def sumAmounts {α : Type} (quantity : String) (f : α → Except LedgerError Amount)
    (items : List α) : Except LedgerError Amount :=
  items.foldlM (fun (total : Amount) item => do
    let value ← f item
    match total.addInRange value with
    | some sum => .ok sum
    | none => .error (.value (.outOfRange quantity))) 0

/-- The kinds of amounts that are memoized for each kind of ownership. -/
inductive AmountKind
  | debit
  | credit
  | immature
  | available
deriving DecidableEq

namespace AmountKind

/-- The quantity an error names. -/
def quantity : AmountKind → String
  | debit => "debit"
  | credit => "credit"
  | immature => "immature_credit"
  | available => "available_credit"

end AmountKind

namespace OwnedAmounts

/-- What is memoized for one kind of ownership. -/
def part (a : OwnedAmounts) : OwnershipFilter → Option Amount
  | .watchOnly => a.watchOnly
  | _ => a.spendable

/-- Memoizes an amount for one kind of ownership. -/
def setPart (a : OwnedAmounts) (part : OwnershipFilter) (value : Amount) : OwnedAmounts :=
  match part with
  | .watchOnly => { a with watchOnly := some value }
  | _ => { a with spendable := some value }

/-- The memoized amount of one kind of ownership, computed first if it is not known. -/
def remember (a : OwnedAmounts) (part : OwnershipFilter) (compute : Except LedgerError Amount) :
    Except LedgerError Amount × OwnedAmounts :=
  match a.part part with
  | some value => (.ok value, a)
  | none =>
    match compute with
    | .ok value => (.ok value, a.setPart part value)
    | .error e => (.error e, a)

/-- The total over the kinds of ownership that the filter counts, spendable first. -/
def total (a : OwnedAmounts) (quantity : String) (filter : OwnershipFilter)
    (compute : OwnershipFilter → Except LedgerError Amount) :
    Except LedgerError Amount × OwnedAmounts :=
  let parts := [OwnershipFilter.spendable, .watchOnly].filter filter.includes
  parts.foldl (fun (state : Except LedgerError Amount × OwnedAmounts) part =>
    match state with
    | (.error e, a) => (.error e, a)
    | (.ok total, a) =>
      match a.remember part (compute part) with
      | (.error e, a) => (.error e, a)
      | (.ok value, a) =>
        match total.addInRange value with
        | some sum => (.ok sum, a)
        | none => (.error (.value (.outOfRange quantity)), a)) (.ok 0, a)

end OwnedAmounts

namespace AmountMemo

/-- What is memoized of one kind of amount. -/
def get (m : AmountMemo) : AmountKind → OwnedAmounts
  | .debit => m.debit
  | .credit => m.credit
  | .immature => m.immature
  | .available => m.available

/-- Replaces what is memoized of one kind of amount. -/
def set (m : AmountMemo) (kind : AmountKind) (a : OwnedAmounts) : AmountMemo :=
  match kind with
  | .debit => { m with debit := a }
  | .credit => { m with credit := a }
  | .immature => { m with immature := a }
  | .available => { m with available := a }

end AmountMemo

namespace Ledger

/-! ## Amounts of records -/

/-- The value of an output if the filter counts it as ours. -/
def outputCredit (keys : KeyView) (filter : OwnershipFilter) (o : TxOut) :
    Except LedgerError Amount :=
  if !o.value.inRange then .error (.value (.outOfRange "txout_credit"))
  else .ok (if filter.counts (keys.ownership o.script) then o.value else 0)

/-- The value of the output an input spends, if the ledger holds it and the filter counts it as
ours. -/
def inputDebit (l : Ledger) (keys : KeyView) (filter : OwnershipFilter) (i : TxIn) :
    Except LedgerError Amount :=
  match l.output? i.prevout with
  | none => .ok 0
  | some spent => outputCredit keys filter spent

/-- The value of our outputs that a record spends. -/
def recordDebit (l : Ledger) (keys : KeyView) (r : Record) (filter : OwnershipFilter) :
    Except LedgerError Amount :=
  sumAmounts "debit" (l.inputDebit keys filter) r.inputs

/-- The value a record pays us. -/
def recordCredit (keys : KeyView) (r : Record) (filter : OwnershipFilter) :
    Except LedgerError Amount :=
  sumAmounts "credit" (outputCredit keys filter) r.outputs

/-- The value a record pays to our change addresses. -/
def recordChange (keys : KeyView) (r : Record) : Except LedgerError Amount :=
  sumAmounts "change" (fun o => .ok o.value) (r.outputs.filter keys.isChange)

/-- The value a record pays us in outputs that are not spent. -/
def unspentCredit (l : Ledger) (keys : KeyView) (chain : ChainView) (r : Record)
    (filter : OwnershipFilter) : Except LedgerError Amount :=
  sumAmounts "available_credit" (fun o => outputCredit keys filter o.2)
    (r.locatedOutputs.filter fun o => !l.isSpent chain o.1)

/-! ## Amounts of entries -/

/-- The number of blocks until a coinbase can be spent, 0 for everything else. It is computed in
32-bit words that wrap around, as they do where overflow is not checked. Where it is, there is no
answer once a step overflows, as the first one does for the setting `2 ^ 31 - 1`. -/
def blocksToMaturity (l : Ledger) (chain : ChainView) (e : Entry) : Int :=
  if !e.matures then 0
  else
    let maturity := l.settings.coinbaseMaturity.toInt32 + 1
    let missing := maturity - Int32.ofInt (l.depthOf chain e)
    (max missing 0).toInt

/-- An amount of an entry for one kind of ownership, from scratch. -/
def freshAmount (l : Ledger) (keys : KeyView) (chain : ChainView) (kind : AmountKind) (e : Entry)
    (part : OwnershipFilter) : Except LedgerError Amount :=
  match kind with
  | .debit => l.recordDebit keys e.record part
  | .credit | .immature => recordCredit keys e.record part
  | .available => l.unspentCredit keys chain e.record part

/-- Whether an entry has an amount of this kind at present; otherwise the amount is 0 and the memo
is not consulted. A coinbase that has not matured credits nothing yet, and only a coinbase in the
active chain that has not matured has an immature credit. -/
def hasAmount (l : Ledger) (chain : ChainView) (kind : AmountKind) (e : Entry) : Bool :=
  match kind with
  | .debit => !e.record.inputs.isEmpty
  | .credit | .available => l.blocksToMaturity chain e ≤ 0
  | .immature => e.matures && l.blocksToMaturity chain e > 0 && l.depthOf chain e > 0

/-- An amount of the entry with a hash, by the memo. -/
def amount (keys : KeyView) (chain : ChainView) (kind : AmountKind) (hash : Hash256)
    (filter : OwnershipFilter) : LedgerOp Amount := fun l =>
  match l.entry? hash with
  | none => (.error (.error (.unknownEntry hash)), l)
  | some e =>
    if !l.hasAmount chain kind e then (.ok 0, l)
    else
      match (e.memo.get kind).total kind.quantity filter (l.freshAmount keys chain kind e) with
      | (.ok total, a) =>
        (.ok total, l.modifyEntry hash fun e => { e with memo := e.memo.set kind a })
      | (.error err, a) =>
        (.error (.error err), l.modifyEntry hash fun e => { e with memo := e.memo.set kind a })

/-- The value the entry with a hash pays to our change addresses, by the memo. -/
def change (keys : KeyView) (hash : Hash256) : LedgerOp Amount := fun l =>
  match l.entry? hash with
  | none => (.error (.error (.unknownEntry hash)), l)
  | some e =>
    match e.memo.change with
    | some value => (.ok value, l)
    | none =>
      match recordChange keys e.record with
      | .error err => (.error (.error err), l)
      | .ok value =>
        (.ok value, l.modifyEntry hash fun e => { e with memo := { e.memo with change := value } })

/-- True if the entry with a hash spends our own outputs. -/
def isFromMe (keys : KeyView) (chain : ChainView) (hash : Hash256) (filter : OwnershipFilter) :
    LedgerOp Bool := do
  let debit ← amount keys chain .debit hash filter
  return debit > 0

/-- True if every input of a record spends an output in the ledger that is ours to spend. -/
def spendsOnlyOurs (l : Ledger) (keys : KeyView) (r : Record) : Bool :=
  r.inputs.all fun i =>
    match l.output? i.prevout with
    | none => false
    | some spent => keys.ownership spent.script == .spendable

/-- True if the entry with a hash is confirmed, or is unconfirmed, spends only our own spendable
outputs, and the settings allow spending unconfirmed change. -/
def isTrusted (keys : KeyView) (chain : ChainView) (hash : Hash256) : LedgerOp Bool := do
  let l ← get
  match l.entry? hash with
  | none => LedgerOp.refuse (.unknownEntry hash)
  | some e =>
    let depth := l.depthOf chain e
    if depth ≥ 1 then return true
    else if depth < 0 then return false
    else if !l.settings.spendZeroConfChange then return false
    else if !(← isFromMe keys chain hash .all) then return false
    else return l.spendsOnlyOurs keys e.record

/-! ## Balances -/

/-- Adds up `f` over the hashes of entries. -/
def sumOver (f : Hash256 → LedgerOp Amount) (hashes : List Hash256) : LedgerOp Amount :=
  hashes.foldlM (fun (total : Amount) hash => do
    let value ← f hash
    match total.addInRange value with
    | some sum => return sum
    | none => LedgerOp.refuse (.value (.outOfRange "balance"))) 0

/-- Adds up `f` over all entries. -/
def sumEntries (f : Hash256 → LedgerOp Amount) : LedgerOp Amount := do
  sumOver f (← get).entries.keys

/-- What is available of trusted entries. -/
def trustedBalance (keys : KeyView) (chain : ChainView) (filter : OwnershipFilter) :
    LedgerOp Amount :=
  sumEntries fun hash => do
    if ← isTrusted keys chain hash then amount keys chain .available hash filter else return 0

/-- What is available of unconfirmed entries that are not trusted. -/
def untrustedBalance (keys : KeyView) (chain : ChainView) (filter : OwnershipFilter) :
    LedgerOp Amount :=
  sumEntries fun hash => do
    if !(← isTrusted keys chain hash) && (← get).depth? chain hash == some 0 then
      amount keys chain .available hash filter
    else return 0

/-- The value of coinbases waiting to mature. -/
def immatureBalance (keys : KeyView) (chain : ChainView) (filter : OwnershipFilter) :
    LedgerOp Amount :=
  sumEntries fun hash => amount keys chain .immature hash filter

end Ledger
end ShieldedLedger
