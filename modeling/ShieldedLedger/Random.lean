/-!
# Randomness

A `RandomSource` hands out bits and numbers below a bound, each draw giving the source for the next
one. What is stated about programs that draw holds for every source. `shuffle` exchanges the items
of a list from the back, each with one that is drawn from those not behind it.
-/

namespace ShieldedLedger

/-- A source of random draws: of a bit, and of one of the numbers up to `last`. -/
class RandomSource (σ : Type) where
  bit : σ → Bool × σ
  upTo : (last : Nat) → σ → Fin (last + 1) × σ

namespace RandomSource

variable {α σ : Type} [RandomSource σ]

/-- Settles the positions `last`, …, `1` in turn, each with an item drawn from those up to it. -/
def settleFrom : (last : Nat) → Array α → σ → Array α × σ
  | 0, items, s => (items, s)
  | last + 1, items, s =>
    let (j, s) := upTo (last + 1) s
    settleFrom last (items.swapIfInBounds (last + 1) j.val) s

/-- Shuffles a list. -/
def shuffle (items : List α) (s : σ) : List α × σ :=
  let (items, s) := settleFrom (items.length - 1) items.toArray s
  (items.toList, s)

end RandomSource
end ShieldedLedger
