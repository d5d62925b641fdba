import ShieldedLedger.Hash.Blake2b
import ShieldedLedger.Record.JoinSplit
import ShieldedLedger.Shuffle

/-!
# Proofs of joinsplits

Verifying and producing zero-knowledge proofs is left to collaborators. This module says which
question a joinsplit puts to the verifier (`JoinSplit.proofQuery?`) and in which order a new
joinsplit's notes are handed to the prover (`JoinSplit.randomized`).
-/

namespace ShieldedLedger

/-- The personalization of the hash that binds a joinsplit to its signing key. -/
def signatureHashPersonal : Bytes 16 :=
  ⟨[0x5a, 0x63, 0x61, 0x73, 0x68, 0x43, 0x6f, 0x6d, 0x70, 0x75, 0x74, 0x65, 0x68, 0x53, 0x69, 0x67],
    rfl⟩

/-- The hash that binds a joinsplit to its signing key: over the seed, both nullifiers and the
key. -/
def signatureHash (seed : Hash256) (nullifiers : Hash256 × Hash256) (key : Hash256) : Hash256 :=
  blake2b256 signatureHashPersonal
    (seed.toList ++ nullifiers.1.toList ++ nullifiers.2.toList ++ key.toList)

/-- The public inputs of a proof of the newer scheme. The signature hash binds the joinsplit to its
signing key. -/
structure GrothInputs where
  anchor : Hash256
  signatureHash : Hash256
  macs : Hash256 × Hash256
  nullifiers : Hash256 × Hash256
  commitments : Hash256 × Hash256
  vpubOld : UInt64
  vpubNew : UInt64
deriving DecidableEq

/-- What a verifier is asked. -/
inductive ProofQuery
  /-- Does the proof of the older scheme hold for the joinsplit, under the signing key? -/
  | phgr (proof : Bytes 296) (joinSplit : JoinSplit) (key : Hash256)
  /-- Does the proof of the newer scheme hold for the public inputs? -/
  | groth (proof : Bytes 192) (inputs : GrothInputs)

/-- A verifier with state `σ`. -/
abbrev Verifier (σ : Type) := ProofQuery → σ → Bool × σ

namespace JoinSplit

/-- The hash that binds this joinsplit to a signing key. -/
def signatureHash (js : JoinSplit) (key : Hash256) : Hash256 :=
  ShieldedLedger.signatureHash js.randomSeed js.nullifiers key

/-- The question a joinsplit puts to the verifier. There is none for a proof of the newer scheme
with a negative public value: its inputs are unsigned. -/
def proofQuery? (js : JoinSplit) (key : Hash256) : Option ProofQuery :=
  match js.proof with
  | .phgr proof => some (.phgr proof js key)
  | .groth proof =>
    if js.vpubOld < 0 || js.vpubNew < 0 then none
    else some (.groth proof
      { anchor := js.anchor
        signatureHash := js.signatureHash key
        macs := js.macs
        nullifiers := js.nullifiers
        commitments := js.commitments
        vpubOld := js.vpubOld.toUInt64
        vpubNew := js.vpubNew.toUInt64 })

/-- Has the joinsplit's proof verified; one without a question does not verify. -/
def verify {σ : Type} (js : JoinSplit) (verifier : Verifier σ) (key : Hash256) (s : σ) : Bool × σ :=
  match js.proofQuery? key with
  | none => (false, s)
  | some query => verifier query s

end JoinSplit

/-! ## New joinsplits -/

/-- What is handed to a prover: consumed notes `ι` and produced notes `ω`, and the rest of the
joinsplit. The proof is left blank unless `computeProof` says otherwise. -/
structure ProofRequest (ι ω : Type) where
  useGroth : Bool
  key : Hash256
  anchor : Hash256
  inputs : List ι
  outputs : List ω
  vpubOld : Amount
  vpubNew : Amount
  computeProof : Bool

/-- A joinsplit made by a prover from shuffled notes, with the place each note had before the
shuffle. -/
structure RandomizedJoinSplit (ρ : Type) where
  proven : ρ
  inputMap : List Nat
  outputMap : List Nat

/-- Shuffles the consumed and the produced notes of a request independently, then has it proven
in the new order. -/
def ProofRequest.randomized {ι ω ρ σ : Type} (prove : ProofRequest ι ω → ρ) (draw : Draw σ)
    (request : ProofRequest ι ω) (s : σ) : Except ShuffleError (RandomizedJoinSplit ρ) × σ :=
  match mappedShuffle draw request.inputs (List.range request.inputs.length) s with
  | (.error e, s) => (.error e, s)
  | (.ok (inputs, inputMap), s) =>
    match mappedShuffle draw request.outputs (List.range request.outputs.length) s with
    | (.error e, s) => (.error e, s)
    | (.ok (outputs, outputMap), s) =>
      (.ok ⟨prove { request with inputs, outputs }, inputMap, outputMap⟩, s)

end ShieldedLedger
