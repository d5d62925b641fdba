import ShieldedLedger.Wallet.Ledger
import ShieldedLedger.Wallet.Selection.Coin
import ShieldedLedger.Wallet.Selection.Subset

/-!
# Covering a target

`coverTarget` picks coins that are confirmed deeply enough and reach a target. A coin of exactly
the target's value wins. Otherwise the coins below the target plus a cent are combined, and weighed
against the smallest coin above that. The answer is none if even all eligible coins fall short.
-/

namespace ShieldedLedger

/-- Coins picked together, with their total value. -/
structure CoinPick where
  coins : List Coin
  value : Amount
deriving DecidableEq

/-- The coin alone. -/
def CoinPick.single (coin : Coin) : CoinPick := ⟨[coin], coin.value⟩

/-- Fails unless a target is a valid amount. -/
def checkTarget (target : Amount) : Except LedgerError Unit :=
  if target.inRange then .ok () else .error (.value (.outOfRange "selection target"))

/-- The sum of values, which must stay in range. -/
def sumValues (quantity : String) (values : List Amount) : Except LedgerError Amount :=
  match Amount.sumInRange values with
  | some total => .ok total
  | none => .error (.value (.outOfRange quantity))

/-- How deep a coin must be confirmed to be eligible, if its record spends our own outputs and if
not. -/
structure DepthRule where
  mine : Int
  theirs : Int
deriving DecidableEq

/-- True if a coin can be spent and is deep enough. -/
def DepthRule.admits (rule : DepthRule) (coin : Coin) : Bool :=
  coin.spendable && (if coin.fromMe then rule.mine else rule.theirs) ≤ coin.depth

/-- Eligible coins, none of which has exactly the target's value, sorted out by their size: those
below the target plus a cent with their total, and the first of the smallest coins above that. -/
structure CoinPool where
  smaller : List Coin
  total : Amount
  larger : Option Coin

namespace CoinPool

/-- No coins yet. -/
def empty : CoinPool := ⟨[], 0, none⟩

/-- The smaller one of a coin above the target and the one known before it. -/
def lower (known : Option Coin) (coin : Coin) : Option Coin :=
  match known with
  | none => some coin
  | some larger => if coin.value < larger.value then some coin else some larger

/-- Sorts out eligible coins after those of `pool`, up to the first that hits the target, which is
then answered alone. Fails at a coin out of range, or if the total leaves the range. -/
def sortOut (target : Amount) : List Coin → CoinPool → Except LedgerError (Coin ⊕ CoinPool)
  | [], pool => .ok (.inr pool)
  | coin :: rest, pool =>
    if !coin.value.inRange then .error (.value (.outOfRange "selected coin"))
    else if coin.value = target then .ok (.inl coin)
    else if coin.value < target + cent then
      match pool.total.addInRange coin.value with
      | none => .error (.value (.outOfRange "selected coins"))
      | some total => sortOut target rest { pool with smaller := pool.smaller ++ [coin], total }
    else sortOut target rest { pool with larger := lower pool.larger coin }

/-- The coins of a list whose flags are set. -/
def included (coins : List Coin) (subset : Subset) : List Coin :=
  ((coins.zip subset.included).filter (·.2)).map (·.1)

/-- The best subset of the smaller coins that a search finds. If the target was missed and the
coins allow for a cent of change, the search is for the target plus a cent. -/
def bestOf {σ : Type} [RandomSource σ] (pool : CoinPool) (values : List Amount) (target : Amount)
    (rounds : Nat) (source : σ) : Subset × σ :=
  let (best, source) := bestSubset values pool.total target rounds source
  if best.value ≠ target ∧ pool.total ≥ target + cent then
    bestSubset values pool.total (target + cent) rounds source
  else (best, source)

/-- True if the coin above the target is to be taken rather than the best subset: that misses the
target by less than a cent, or is no smaller than the coin. -/
def prefersLarger (target : Amount) (best : Subset) (larger : Coin) : Bool :=
  (best.value ≠ target && best.value < target + cent) || larger.value ≤ best.value

/-- Picks from the pool, if it reaches the target. -/
def pick {σ : Type} [RandomSource σ] (pool : CoinPool) (target : Amount) (rounds : Nat)
    (source : σ) : Option CoinPick × σ :=
  if pool.total = target then (some ⟨pool.smaller, pool.total⟩, source)
  else if pool.total < target then (pool.larger.map CoinPick.single, source)
  else
    let coins := pool.smaller.mergeSort fun a b => a.value ≥ b.value
    let (best, source) := pool.bestOf (coins.map (·.value)) target rounds source
    let subset : CoinPick := ⟨included coins best, best.value⟩
    match pool.larger with
    | none => (some subset, source)
    | some larger =>
      (some (if prefersLarger target best larger then .single larger else subset), source)

end CoinPool

/-- Picks coins that reach the target among those the rule admits, if they suffice. -/
def coverTarget {σ : Type} [RandomSource σ] (target : Amount) (rule : DepthRule)
    (coins : List Coin) (rounds : Nat) (source : σ) : Except LedgerError (Option CoinPick) × σ :=
  match checkTarget target with
  | .error e => (.error e, source)
  | .ok () =>
    let (shuffled, source) := RandomSource.shuffle coins source
    match CoinPool.sortOut target (shuffled.filter rule.admits) .empty with
    | .error e => (.error e, source)
    | .ok (.inl exact) => (.ok (some (.single exact)), source)
    | .ok (.inr pool) =>
      let (picked, source) := pool.pick target rounds source
      (.ok picked, source)

end ShieldedLedger
