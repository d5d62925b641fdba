import ShieldedLedger.Money
import ShieldedLedger.Record.OutPoint
import ShieldedLedger.SortedMap

/-!
# Coins

A `Coin` is an output of ours as coin selection sees it. A `CoinControl` is what the caller asks of
the selection: outputs to spend in any case, and whether others may be added.
-/

namespace ShieldedLedger

/-- An output of ours that may be spent. The depth is that of its record; it is spendable if we can
sign for it, and from us if its record spends our own outputs. -/
structure Coin where
  outpoint : OutPoint
  value : Amount
  depth : Int
  spendable : Bool
  isCoinbase : Bool
  fromMe : Bool
deriving DecidableEq

/-- What a caller asks of a selection: the outputs to spend, whether others may be added, and
whether watched outputs count as spendable. -/
structure CoinControl where
  selected : SortedSet OutPoint
  allowOthers : Bool
  allowWatchOnly : Bool

namespace CoinControl

/-- Nothing is asked, and no others may be added. -/
def blank : CoinControl := ⟨SortedMap.empty, false, false⟩

/-- True if any output is preselected. -/
def hasSelected (c : CoinControl) : Bool := !c.selected.isEmpty

/-- True if an output is preselected. -/
def isSelected (c : CoinControl) (outpoint : OutPoint) : Bool := c.selected.contains outpoint

/-- Preselects an output. -/
def select (c : CoinControl) (outpoint : OutPoint) : CoinControl :=
  { c with selected := SortedSet.add c.selected outpoint }

/-- Drops an output from the preselection. -/
def unselect (c : CoinControl) (outpoint : OutPoint) : CoinControl :=
  { c with selected := c.selected.erase outpoint }

/-- Drops the preselection. -/
def unselectAll (c : CoinControl) : CoinControl := { c with selected := SortedMap.empty }

/-- True if only preselected outputs may be spent. -/
def isExclusive (c : CoinControl) : Bool := c.hasSelected && !c.allowOthers

/-- True if an output may be spent at all. -/
def admits (c : CoinControl) (outpoint : OutPoint) : Bool := !c.isExclusive || c.isSelected outpoint

end CoinControl
end ShieldedLedger
