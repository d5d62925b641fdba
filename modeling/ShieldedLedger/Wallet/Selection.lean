import ShieldedLedger.Wallet.Amounts
import ShieldedLedger.Wallet.Selection.Cover

/-!
# Coin selection

`Ledger.availableCoins` lists the outputs of ours that could be spent now, and `Ledger.selectCoins`
picks some that reach a target, honouring what the caller asks for (`CoinControl`). Requirements on
the confirmations are relaxed step by step (`Settings.depthRules`). While coinbase outputs are
protected none is picked, and the result tells whether they would have been needed.
-/

namespace ShieldedLedger

/-- Which coins are listed. Entries that are not trusted are left out if `onlyConfirmed` says so. -/
structure CoinQuery where
  onlyConfirmed : Bool
  includeZero : Bool
  includeCoinbase : Bool
  control : Option CoinControl

namespace Ledger

variable (keys : KeyView) (chain : ChainView)

/-- The coin an output makes, if it can be listed: it is ours, neither spent nor locked, not of
value zero unless that is asked for, and admitted by the caller. -/
def coin? (l : Ledger) (q : CoinQuery) (e : Entry) (fromMe : Bool) (outpoint : OutPoint)
    (o : TxOut) : Option Coin :=
  let ownership := keys.ownership o.script
  if ownership == .foreign || l.isSpent chain outpoint || l.isLocked outpoint ||
      (o.value ≤ 0 && !q.includeZero) || !q.control.all (·.admits outpoint) then none
  else some
    { outpoint
      value := o.value
      depth := l.depthOf chain e
      spendable := ownership == .spendable || q.control.any (·.allowWatchOnly)
      isCoinbase := e.record.isCoinbase
      fromMe }

/-- The coins of the entry with a hash. -/
def entryCoins (q : CoinQuery) (hash : Hash256) : LedgerOp (List Coin) := do
  let l ← get
  match l.entry? hash with
  | none => return []
  | some e =>
    if q.onlyConfirmed then
      if !(← isTrusted keys chain hash) then return []
    if e.record.isCoinbase && !q.includeCoinbase then return []
    if e.record.isCoinbase && l.blocksToMaturity chain e > 0 then return []
    if l.depthOf chain e < 0 then return []
    let fromMe ← isFromMe keys chain hash .all
    return e.record.locatedOutputs.filterMap fun (outpoint, o) =>
      l.coin? keys chain q e fromMe outpoint o

/-- The outputs of ours that could be spent now. -/
def availableCoins (q : CoinQuery) : LedgerOp (List Coin) := do
  (← get).entries.keys.foldlM (fun coins hash => do
    return coins ++ (← entryCoins keys chain q hash)) []

end Ledger

/-! ## Selecting -/

/-- The requirements on confirmations, the strictest first. The last lets our own change be spent
unconfirmed, where that is allowed. -/
def Settings.depthRules (s : Settings) : List DepthRule :=
  [⟨1, 6⟩, ⟨1, 1⟩] ++ if s.spendZeroConfChange then [⟨0, 1⟩] else []

/-- How coinbase outputs bear on a selection: whether there are no others (`only`), and whether the
target can only be met with them (`needed`). -/
structure CoinbaseNeed where
  only : Bool
  needed : Bool
deriving DecidableEq

/-- What a selection gives: the outputs to spend, and how coinbases bear on it. -/
structure CoinSelection where
  pick : CoinPick
  coinbase : CoinbaseNeed
deriving DecidableEq

/-- The total value of the coins we can sign for. -/
def spendableTotal (coins : List Coin) : Except LedgerError Amount :=
  sumValues "spendable coins" ((coins.filter (·.spendable)).map (·.value))

/-- How coinbase outputs bear on a selection, given the coins with them and without. They are
needed only if they are protected, and then if the coins without them do not exceed the target
while those with them reach it. -/
def CoinbaseNeed.ofCoins (isProtected : Bool) (target : Amount)
    (without withThem : List Coin) : Except LedgerError CoinbaseNeed := do
  let only := without.isEmpty && !withThem.isEmpty
  if isProtected && without.length < withThem.length then
    if (← spendableTotal without) ≤ target then
      return ⟨only, target ≤ (← spendableTotal withThem)⟩
  return ⟨only, false⟩

/-- Tries the rules in order until the coins suffice. -/
def coverByRules {σ : Type} [RandomSource σ] (target : Amount) (coins : List Coin) (rounds : Nat) :
    List DepthRule → σ → Except LedgerError (Option CoinPick)
  | [], _ => .ok none
  | rule :: rules, source =>
    match coverTarget target rule coins rounds source with
    | (.error e, _) => .error e
    | (.ok (some picked), _) => .ok (some picked)
    | (.ok none, source) => coverByRules target coins rounds rules source

namespace Ledger

/-- The coin that a preselected reference names. It is taken to be spendable. -/
def preselected (l : Ledger) (chain : ChainView) (outpoint : OutPoint) : Except LedgerError Coin :=
  match l.entry? outpoint.hash with
  | none => .error (.notWalletOutput outpoint)
  | some e =>
    match e.record.output? outpoint.index with
    | none => .error (.notWalletOutput outpoint)
    | some o => .ok ⟨outpoint, o.value, l.depthOf chain e, true, e.record.isCoinbase, false⟩

/-- The coins picked when only preselected ones may be spent: all of them, if they reach the
target. -/
def pickExclusive (target : Amount) (coins : List Coin) :
    Except LedgerError (Option CoinPick) := do
  let coins := coins.filter (·.spendable)
  let value ← sumValues "preselected coins" (coins.map (·.value))
  return if value < target then none else some ⟨coins, value⟩

/-- The coins picked when others may be added to the `preset` ones: those, and as many of `coins`
as the rest of the target takes. -/
def pickWithPreset {σ : Type} [RandomSource σ] (settings : Settings) (target : Amount)
    (preset coins : List Coin) (source : σ) : Except LedgerError (Option CoinPick) := do
  let presetValue ← sumValues "preselected coins" (preset.map (·.value))
  let remaining := target - presetValue
  let picked ←
    if remaining ≤ 0 then .ok (some ⟨[], 0⟩)
    else coverByRules remaining coins settings.selectionIterations settings.depthRules source
  match picked with
  | none => return none
  | some picked =>
    let value ← sumValues "selected coins" [picked.value, presetValue]
    return some ⟨picked.coins ++ preset, value⟩

/-- The coins picked for a target, if they suffice. -/
def pickCoins {σ : Type} [RandomSource σ] (l : Ledger) (chain : ChainView) (target : Amount)
    (control : Option CoinControl) (coins : List Coin) (source : σ) :
    Except LedgerError (Option CoinPick) := do
  if control.any (·.isExclusive) then pickExclusive target coins
  else
    match control with
    | none => pickWithPreset l.settings target [] coins source
    | some control =>
      let preset ← control.selected.keys.mapM (l.preselected chain)
      let others := coins.filter fun coin => !control.isSelected coin.outpoint
      pickWithPreset l.settings target preset others source

/-- Picks outputs of ours that reach the target. Preselected outputs are always among them, and
they are all of them unless others may be added. -/
def selectCoins {σ : Type} [RandomSource σ] (keys : KeyView) (chain : ChainView) (target : Amount)
    (control : Option CoinControl) (source : σ) : LedgerOp CoinSelection := do
  LedgerOp.ask fun _ => checkTarget target
  let without ← availableCoins keys chain ⟨true, false, false, control⟩
  let withThem ← availableCoins keys chain ⟨true, false, true, control⟩
  let l ← get
  let isProtected := l.settings.coinbaseMustBeProtected
  let need ← LedgerOp.ask fun _ => CoinbaseNeed.ofCoins isProtected target without withThem
  let coins := if isProtected then without else withThem
  match ← LedgerOp.ask fun l => l.pickCoins chain target control coins source with
  | some pick => return ⟨pick, need⟩
  | none => LedgerOp.refuse (.insufficientFunds target need.only need.needed)

end Ledger
end ShieldedLedger
