/-!
# Shuffles

`mappedShuffle` shuffles a list from the back and applies every exchange to a second list as well,
so that, starting from the identity map, the second list tells where each item came from. The
positions to exchange are drawn from a generator that is asked for a number below a bound; a draw
that reaches its bound ends the shuffle (`ShuffleError.drawOutOfBounds`).
-/

namespace ShieldedLedger

/-- A source of draws with state `σ`: given a bound, a number and the next state. -/
abbrev Draw (σ : Type) := Nat → σ → Nat × σ

/-- Why a shuffle stops. -/
inductive ShuffleError
  /-- The map is not as long as the list. -/
  | lengthMismatch
  /-- The generator answered a number that is not below the bound. -/
  | drawOutOfBounds (drawn bound : Nat)
deriving DecidableEq

/-- What went wrong, in words. -/
def ShuffleError.message : ShuffleError → String
  | .lengthMismatch => "shuffle map covers every item"
  | .drawOutOfBounds drawn bound =>
    "shuffle generator returned " ++ toString drawn ++ " for bound " ++ toString bound

namespace Shuffle

variable {α σ : Type}

/-- Exchanges the items at two positions. -/
def exchange (items : Array α) (i j : Nat) : Array α := items.swapIfInBounds i j

/-- Settles the positions `last`, …, `1` in turn, each with an item drawn from those not yet
settled. -/
def settle (draw : Draw σ) : (last : Nat) → Array α → σ → Except ShuffleError (Array α) × σ
  | 0, items, s => (.ok items, s)
  | last + 1, items, s =>
    let (j, s) := draw (last + 2) s
    if j ≤ last + 1 then settle draw last (exchange items (last + 1) j) s
    else (.error (.drawOutOfBounds j (last + 2)), s)

end Shuffle

/-- Shuffles `items` and `map` alike. -/
def mappedShuffle {α σ : Type} (draw : Draw σ) (items : List α) (map : List Nat) (s : σ) :
    Except ShuffleError (List α × List Nat) × σ :=
  if items.length = map.length then
    let (pairs, s) := Shuffle.settle draw (items.length - 1) (items.zip map).toArray s
    (pairs.map fun pairs => (pairs.toList.map (·.1), pairs.toList.map (·.2)), s)
  else (.error .lengthMismatch, s)

end ShieldedLedger
