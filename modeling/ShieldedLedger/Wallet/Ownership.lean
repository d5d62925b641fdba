/-!
# Ownership

What the wallet can do with an output: nothing (`Ownership.foreign`), watch it, or spend it. A
filter says which kinds of ownership a query counts.
-/

namespace ShieldedLedger

/-- The wallet's relation to an output. What is watched has no spending key. -/
inductive Ownership
  | foreign
  | watchOnly
  | spendable
deriving DecidableEq

/-- Which kinds of ownership a query counts. -/
inductive OwnershipFilter
  | spendable
  | watchOnly
  | all
deriving DecidableEq

namespace OwnershipFilter

/-- True if an output of this ownership is counted. -/
def counts : OwnershipFilter → Ownership → Bool
  | _, .foreign => false
  | .watchOnly, .watchOnly | .all, .watchOnly => true
  | .spendable, .spendable | .all, .spendable => true
  | .spendable, .watchOnly | .watchOnly, .spendable => false

/-- True if every kind that `other` counts is counted. -/
def includes : OwnershipFilter → OwnershipFilter → Bool
  | .all, _ => true
  | .spendable, .spendable => true
  | .watchOnly, .watchOnly => true
  | _, _ => false

end OwnershipFilter
end ShieldedLedger
