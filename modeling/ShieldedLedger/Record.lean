import ShieldedLedger.Record.Certificate

/-!
# Records

A record is anything that moves value: a transaction or a certificate. The questions the ledger
and the context-free checks ask of either kind are answered here; a certificate has no inputs, no
joinsplits and no crosschain outputs.
-/

namespace ShieldedLedger

/-- A transaction or a certificate. -/
inductive Record
  | transaction (tx : Transaction)
  | certificate (cert : Certificate)

namespace Record

/-- The content hash. -/
def hash : Record → Hash256
  | transaction tx => tx.hash
  | certificate cert => cert.hash

/-- The transparent inputs. -/
def inputs : Record → List TxIn
  | transaction tx => tx.body.inputs
  | certificate _ => []

/-- The transparent outputs. -/
def outputs : Record → List TxOut
  | transaction tx => tx.body.outputs
  | certificate cert => cert.body.outputs

/-- The joinsplits. -/
def joinSplits : Record → List JoinSplit
  | transaction tx => tx.body.joinSplits
  | certificate _ => []

/-- The nullifiers revealed, in order. -/
def nullifiers : Record → List Hash256
  | transaction tx => tx.nullifiers
  | certificate _ => []

/-- True for coinbase transactions. -/
def isCoinbase : Record → Bool
  | transaction tx => tx.isCoinbase
  | certificate _ => false

/-- The length of the encoding. -/
def size : Record → Nat
  | transaction tx => tx.size
  | certificate cert => cert.size

/-- The canonical encoding; a certificate may have none. -/
def encode? : Record → Option (List UInt8)
  | transaction tx => some tx.encode
  | certificate cert => cert.encode?

/-- The output at a position. -/
def output? (r : Record) (index : UInt32) : Option TxOut := r.outputs[index.toNat]?

/-- The transaction, if this is one. -/
def transaction? : Record → Option Transaction
  | transaction tx => some tx
  | certificate _ => none

/-- The certificate, if this is one. -/
def certificate? : Record → Option Certificate
  | transaction _ => none
  | certificate cert => some cert

/-- The references of the outputs, each with its output. -/
def locatedOutputs (r : Record) : List (OutPoint × TxOut) :=
  r.outputs.zipIdx.map fun (o, n) => (⟨r.hash, UInt32.ofNat n⟩, o)

end Record
end ShieldedLedger
