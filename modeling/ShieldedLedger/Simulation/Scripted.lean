import ShieldedLedger.Record.ShieldedProof
import ShieldedLedger.Shuffle

/-!
# Scripted answers

A verifier and a source of draws that take their answers from a list and keep what they were asked,
for simulations in which these are settled beforehand.
-/

namespace ShieldedLedger.Simulation

/-- Answers from a list, and true beyond it. Its state is the answers left and the questions so
far. -/
def scriptedVerifier : Verifier (List Bool × List ProofQuery) := fun query (answers, asked) =>
  (answers.headD true, (answers.drop 1, asked ++ [query]))

/-- Draws from a list, and zero beyond it. Its state is the draws left and the bounds so far. -/
def scriptedDraw : Draw (List Nat × List Nat) := fun bound (draws, bounds) =>
  (draws.headD 0, (draws.drop 1, bounds ++ [bound]))

end ShieldedLedger.Simulation
