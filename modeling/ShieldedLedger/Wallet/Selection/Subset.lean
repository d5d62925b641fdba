import ShieldedLedger.Money
import ShieldedLedger.Random

/-!
# Subsets near a target

`bestSubset` looks for a subset of a list of values whose sum reaches a target and goes beyond it
as little as possible. It is a randomized search: in every round a first pass picks values at
random, and if the target was not reached, a second pass adds the values the first left out. A
value whose addition reaches the target gives a candidate and is taken out again. The smallest
candidate of all rounds is the answer, and everything is the first candidate.
-/

namespace ShieldedLedger

/-- A subset of a list of values, by a flag for each of them, with its sum. -/
structure Subset where
  included : List Bool
  value : Amount
deriving DecidableEq

namespace Subset

/-- Everything, with the sum `total`. -/
def full (values : List Amount) (total : Amount) : Subset := ⟨values.map fun _ => true, total⟩

/-- A search within one round: the sum of the values picked in it, whether it has reached the
target, the smallest candidate so far, and the source of randomness. -/
structure Search (σ : Type) where
  sum : Amount
  reached : Bool
  best : Subset
  source : σ

variable {σ : Type}

/-- Goes over values, each with a flag that tells whether it is picked already, after those with
the flags `passed` (last first). `pick` decides from the flag whether to add a value. Answers the
flags that the values have then. -/
def pass (pick : Bool → σ → Bool × σ) (target : Amount) :
    (passed : List Bool) → List (Amount × Bool) → Search σ → List Bool × Search σ
  | _, [], s => ([], s)
  | passed, (value, flag) :: rest, s =>
    let (add, source) := pick flag s.source
    let sum := s.sum + value
    let (flag, s) :=
      if !add then (flag, { s with source })
      else if sum ≥ target then
        let candidate := ⟨passed.reverse ++ true :: rest.map (·.2), sum⟩
        (false, { s with
          reached := true, source, best := if sum < s.best.value then candidate else s.best })
      else (true, { s with sum, source })
    let (flags, s) := pass pick target (flag :: passed) rest s
    (flag :: flags, s)

variable [RandomSource σ]

/-- One round of the search. -/
def round (values : List Amount) (target : Amount) (best : Subset) (source : σ) : Subset × σ :=
  let (flags, s) := pass (fun _ source => RandomSource.bit source) target []
    (values.map fun value => (value, false)) ⟨0, false, best, source⟩
  if s.reached then (s.best, s.source)
  else
    let (_, s) := pass (fun flag source => (!flag, source)) target [] (values.zip flags) s
    (s.best, s.source)

/-- At most `rounds` rounds, stopping when a candidate hits the target. -/
def search (values : List Amount) (target : Amount) : (rounds : Nat) → Subset → σ → Subset × σ
  | 0, best, source => (best, source)
  | rounds + 1, best, source =>
    if best.value = target then (best, source)
    else
      let (best, source) := round values target best source
      search values target rounds best source

end Subset

/-- The smallest subset found in `rounds` rounds whose sum reaches the target, starting from
everything, with the sum `total`. -/
def bestSubset {σ : Type} [RandomSource σ] (values : List Amount) (total target : Amount)
    (rounds : Nat) (source : σ) : Subset × σ :=
  Subset.search values target rounds (Subset.full values total) source

end ShieldedLedger
