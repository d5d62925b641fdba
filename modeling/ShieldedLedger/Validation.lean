import ShieldedLedger.Record
import ShieldedLedger.Record.ShieldedProof

/-!
# Context-free checks

Each check looks at one record alone and names the first rule it finds broken (`Violation`).
`Transaction.violation?` runs the checks in the order the chain applies them, and the outcome is
reported to a sink (`report`): nothing if the record passes, and otherwise one rejection. The
reasons are relied upon by peers and do not change.
-/

namespace ShieldedLedger

/-- The code a rejection is sent to peers with. -/
inductive RejectCode
  | malformed
  | invalid
  | obsolete
  | duplicate
  | nonstandard
  | insufficientFee
deriving DecidableEq

namespace RejectCode

/-- The number on the wire. -/
def toNat : RejectCode → Nat
  | malformed => 0x01
  | invalid => 0x10
  | obsolete => 0x11
  | duplicate => 0x12
  | nonstandard => 0x40
  | insufficientFee => 0x42

/-- The code with a number on the wire. -/
def ofNat? (n : Nat) : Option RejectCode :=
  [malformed, invalid, obsolete, duplicate, nonstandard, insufficientFee].find? (·.toNat == n)

end RejectCode

/-- A rule a record breaks. -/
inductive Violation
  | versionTooLow
  | noInputs
  | noOutputs
  | oversize
  | negativeOutput
  | outputTooLarge
  | outputTotalTooLarge
  | negativeVpubOld
  | negativeVpubNew
  | vpubOldTooLarge
  | vpubNewTooLarge
  | bothVpubs
  | inputTotalTooLarge
  | creationAmount
  | lockAmount
  | forwardAmount
  | duplicateInputs
  | duplicateNullifiers
  | coinbaseJoinSplits
  | coinbaseScriptSize
  | nullPrevout
  | proofRejected
deriving DecidableEq

namespace Violation

/-- The reason peers are given. -/
def reason : Violation → String
  | versionTooLow => "bad-txns-version-too-low"
  | noInputs => "bad-txns-vin-empty"
  | noOutputs => "bad-txns-vout-empty"
  | oversize => "bad-txns-oversize"
  | negativeOutput => "bad-txns-vout-negative"
  | outputTooLarge => "bad-txns-vout-toolarge"
  | outputTotalTooLarge => "bad-txns-txouttotal-toolarge"
  | negativeVpubOld => "bad-txns-vpub_old-negative"
  | negativeVpubNew => "bad-txns-vpub_new-negative"
  | vpubOldTooLarge => "bad-txns-vpub_old-toolarge"
  | vpubNewTooLarge => "bad-txns-vpub_new-toolarge"
  | bothVpubs => "bad-txns-vpubs-both-nonzero"
  | inputTotalTooLarge => "bad-txns-txintotal-toolarge"
  | creationAmount => "sidechain-sc-creation-amount-outside-range"
  | lockAmount => "sidechain-certifier-lock-amount-outside-range"
  | forwardAmount => "sidechain-sc-fwd-amount-outside-range"
  | duplicateInputs => "bad-txns-inputs-duplicate"
  | duplicateNullifiers => "bad-joinsplits-nullifiers-duplicate"
  | coinbaseJoinSplits => "bad-cb-has-joinsplits"
  | coinbaseScriptSize => "bad-cb-length"
  | nullPrevout => "bad-txns-prevout-null"
  | proofRejected => "bad-txns-joinsplit-verification-failed"

/-- How much the rejection counts against the peer. -/
def score : Violation → UInt32
  | noInputs | noOutputs | nullPrevout => 10
  | _ => 100

end Violation

/-! ## Sinks -/

/-- Something that takes note of rejections. -/
class RejectionSink (σ : Type) where
  reject : σ → (score : UInt32) → RejectCode → (reason : String) → σ

/-- Reports the outcome of a check: true and nothing noted, or false and one rejection. -/
def report {σ : Type} [RejectionSink σ] (violation : Option Violation) (sink : σ) : Bool × σ :=
  match violation with
  | none => (true, sink)
  | some v => (false, RejectionSink.reject sink v.score .invalid v.reason)

/-- The accumulated outcome of a validation run, with the code and the reason of the last rejection.
The score stops at the largest 32-bit number. -/
structure ValidationState where
  valid : Bool
  score : UInt32
  code : Option RejectCode
  reason : String
deriving DecidableEq

namespace ValidationState

/-- Nothing rejected yet. -/
def initial : ValidationState := ⟨true, 0, none, ""⟩

/-- Takes note of a rejection. -/
def reject (state : ValidationState) (score : UInt32) (code : RejectCode) (reason : String) :
    ValidationState where
  valid := false
  score := UInt32.ofNat (min 0xffffffff (state.score.toNat + score.toNat))
  code := some code
  reason := reason

instance : RejectionSink ValidationState := ⟨reject⟩

end ValidationState

/-! ## Checks of any record -/

namespace Record

/-- The largest encoding accepted. -/
def maxSize : Nat := 100000

/-- The encoding must not be too large. -/
def sizeViolation? (r : Record) : Option Violation :=
  if r.size > maxSize then some .oversize else none

/-- True if there is no limit (zero) or the record has at most `limit` inputs. -/
def withinInputLimit (r : Record) (limit : Nat) : Bool :=
  limit == 0 || r.inputs.length ≤ limit

/-- Every output value is in range, and so is the running total, which is returned. -/
def outputsTotal : (total : Amount) → List TxOut → Except Violation Amount
  | total, [] => .ok total
  | total, o :: rest =>
    if o.value < 0 then .error .negativeOutput
    else if o.value > maxMoney then .error .outputTooLarge
    else if !(total + o.value).inRange then .error .outputTotalTooLarge
    else outputsTotal (total + o.value) rest

/-- The public values of every joinsplit are in range, at most one of the two is not zero, and the
running total of value leaving stays in range. -/
def vpubsTotal : (total : Amount) → List JoinSplit → Except Violation Amount
  | total, [] => .ok total
  | total, js :: rest =>
    if js.vpubOld < 0 then .error .negativeVpubOld
    else if js.vpubNew < 0 then .error .negativeVpubNew
    else if js.vpubOld > maxMoney then .error .vpubOldTooLarge
    else if js.vpubNew > maxMoney then .error .vpubNewTooLarge
    else if js.vpubNew ≠ 0 ∧ js.vpubOld ≠ 0 then .error .bothVpubs
    else if !(total + js.vpubOld).inRange then .error .outputTotalTooLarge
    else vpubsTotal (total + js.vpubOld) rest

/-- Value leaving: the outputs, then what the joinsplits take in. -/
def outputsAmountViolation? (r : Record) : Option Violation :=
  match outputsTotal 0 r.outputs with
  | .error v => some v
  | .ok total =>
    match vpubsTotal total r.joinSplits with
    | .error v => some v
    | .ok _ => none

/-- What the joinsplits release, alone and in total, is in range. -/
def inputsAmountViolation? (r : Record) : Option Violation :=
  match Amount.sumInRange (r.joinSplits.map (·.vpubNew)) with
  | none => some .inputTotalTooLarge
  | some _ => none

/-- No output is spent twice and no nullifier revealed twice within the record. -/
def duplicationViolation? (r : Record) : Option Violation :=
  if ¬ (r.inputs.map (·.prevout)).Nodup then some .duplicateInputs
  else if ¬ r.nullifiers.Nodup then some .duplicateNullifiers
  else none

/-- A coinbase has no joinsplits and a script of 2 to 100 bytes; nothing else has an input without
a reference. -/
def interactionViolation? (r : Record) : Option Violation :=
  if r.isCoinbase then
    if ¬ r.joinSplits.isEmpty then some .coinbaseJoinSplits
    else
      let size := (r.inputs.map (·.script.size)).headD 0
      if size < 2 ∨ 100 < size then some .coinbaseScriptSize else none
  else if r.inputs.any (·.prevout.isNull) then some .nullPrevout
  else none

end Record

/-! ## Checks of transactions -/

namespace Transaction

/-- Adds the amounts of crosschain outputs of one kind to the total, or names the violation. -/
def crosschainTotal (violation : Violation) :
    (total : Amount) → List Amount → Except Violation Amount
  | total, [] => .ok total
  | total, value :: rest =>
    match total.accumulateCrosschain value with
    | (true, total) => crosschainTotal violation total rest
    | (false, _) => .error violation

/-- Every crosschain output carries a positive amount in range, and so is the total over all three
kinds. -/
def crosschainViolation? (t : Transaction) : Option Violation :=
  let outcome := do
    let total ← crosschainTotal .creationAmount 0 (t.body.creations.map SidechainCreation.value)
    let total ← crosschainTotal .lockAmount total (t.body.locks.map CertifierLock.value)
    crosschainTotal .forwardAmount total (t.body.forwards.map ForwardTransfer.value)
  match outcome with
  | .error v => some v
  | .ok _ => none

/-- The version is positive or one of the negative tags in use. -/
def versionViolation? (t : Transaction) : Option Violation :=
  let version := t.body.version
  if version < Version.transparent ∧ version ≠ Version.groth ∧ version ≠ Version.sidechain then
    some .versionTooLow
  else none

/-- Only a transaction with joinsplits may do without transparent inputs. -/
def inputsViolation? (t : Transaction) : Option Violation :=
  if t.body.inputs.isEmpty ∧ t.body.joinSplits.isEmpty then some .noInputs else none

/-- Only a transaction with joinsplits or crosschain outputs may do without transparent
outputs. -/
def outputsViolation? (t : Transaction) : Option Violation :=
  if t.body.outputs.isEmpty ∧ t.body.joinSplits.isEmpty ∧ t.hasNoCrosschain then some .noOutputs
  else none

/-- Every check but the verification of proofs, in the order the chain applies them. -/
def checks (t : Transaction) : List (Option Violation) :=
  let r := Record.transaction t
  [t.versionViolation?, t.inputsViolation?, t.outputsViolation?, r.sizeViolation?,
    r.outputsAmountViolation?, r.inputsAmountViolation?, t.crosschainViolation?,
    r.duplicationViolation?, r.interactionViolation?]

/-- What the checks are called, in the same order. -/
def checkNames : List String :=
  ["version_basic", "inputs_availability", "outputs_availability", "serialized_size",
    "outputs_amount", "inputs_amount", "crosschain_amounts", "inputs_duplication",
    "inputs_interaction"]

/-- Reports every violation the checks find, leaving proofs aside, and whether there is none. -/
def reportAll {σ : Type} [RejectionSink σ] (t : Transaction) (sink : σ) : Bool × σ :=
  t.checks.foldl (fun (passed, sink) violation =>
    let (ok, sink) := report violation sink
    (passed && ok, sink)) (true, sink)

/-- The first violation the checks find, leaving proofs aside. -/
def violation? (t : Transaction) : Option Violation := t.checks.findSome? id

/-- Runs every check but the verification of proofs. -/
def checkWithoutProof {σ : Type} [RejectionSink σ] (t : Transaction) (sink : σ) : Bool × σ :=
  report t.violation? sink

/-- Has the proofs of `joinSplits` verified in order, up to the first that fails. -/
def proofViolation? {ν : Type} (verifier : Verifier ν) (key : Hash256) :
    List JoinSplit → ν → Option Violation × ν
  | [], s => (none, s)
  | js :: rest, s =>
    match js.verify verifier key s with
    | (true, s) => proofViolation? verifier key rest s
    | (false, s) => (some .proofRejected, s)

/-- Runs every check, the verification of proofs last. -/
def check {σ ν : Type} [RejectionSink σ] (t : Transaction) (verifier : Verifier ν) (sink : σ)
    (s : ν) : (Bool × σ) × ν :=
  match t.violation? with
  | some v => (report (some v) sink, s)
  | none =>
    let (violation, s) := proofViolation? verifier t.body.joinSplitKey t.body.joinSplits s
    (report violation sink, s)

end Transaction

namespace Certificate

/-- The checks of a certificate: its size, then its output amounts. -/
def check {σ : Type} [RejectionSink σ] (c : Certificate) (sink : σ) : Bool × σ :=
  let r := Record.certificate c
  report (r.sizeViolation? <|> r.outputsAmountViolation?) sink

end Certificate
end ShieldedLedger
