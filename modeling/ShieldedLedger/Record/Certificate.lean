import ShieldedLedger.Record.Transaction

/-!
# Sidechain certificates

A certificate closes a withdrawal epoch of a sidechain. It has no inputs and no joinsplits; its
outputs are ordinary ones or backward transfers. The encoding lists the two kinds separately and
keeps of a backward transfer only its value and receiver, so an output flagged as a backward
transfer whose script carries no public key hash cannot be encoded. The hash and the size of such a
certificate cover what comes before that output (`CertBody.written`).
-/

namespace ShieldedLedger

/-- The fields of a certificate for the epoch of a sidechain that ends with `endBlock`. The outputs
are ordinary ones and backward transfers. -/
structure CertBody where
  version : Int32
  sidechain : Hash256
  epoch : Int32
  endBlock : Hash256
  outputs : List TxOut
  nonce : Hash256
deriving DecidableEq

namespace CertBody

/-- A certificate of nothing. -/
def blank : CertBody where
  version := Version.certificate
  sidechain := Bytes.zero
  epoch := 0
  endBlock := Bytes.zero
  outputs := []
  nonce := Bytes.zero

/-- The outputs that are not backward transfers, in order. -/
def ordinary (c : CertBody) : List TxOut := c.outputs.filter (!·.fromBackwardTransfer)

/-- The outputs that are backward transfers, in order. -/
def backward (c : CertBody) : List TxOut := c.outputs.filter (·.fromBackwardTransfer)

/-- The transfers of the outputs flagged as such, unless one of them carries no public key hash. -/
def backwardTransfers? (c : CertBody) : Option (List BackwardTransfer) :=
  c.backward.mapM TxOut.backwardTransfer?

/-- Everything before the backward transfers themselves, their count included. -/
def encodeHead (c : CertBody) : List UInt8 :=
  encodeI32 c.version ++ c.sidechain.toList ++ encodeI32 c.epoch ++ c.endBlock.toList ++
    encodeList TxOut.encode c.ordinary ++ encodeCount c.backward.length

/-- The canonical encoding, if every backward transfer can be encoded. -/
def encode? (c : CertBody) : Option (List UInt8) :=
  c.backwardTransfers?.map fun transfers =>
    c.encodeHead ++ transfers.flatMap BackwardTransfer.encode ++ c.nonce.toList

/-- The encodings of `outputs` as backward transfers, up to the first that has none. -/
def encodableTransfers : List TxOut → List UInt8
  | [] => []
  | o :: rest =>
    match o.backwardTransfer? with
    | none => []
    | some transfer => transfer.encode ++ encodableTransfers rest

/-- What can be written: the canonical encoding if there is one, and otherwise all that comes
before the first backward transfer that cannot be encoded. -/
def written (c : CertBody) : List UInt8 :=
  match c.encode? with
  | some bytes => bytes
  | none => c.encodeHead ++ encodableTransfers c.backward

/-- The double hash of what can be written. -/
def hash (c : CertBody) : Hash256 := sha256d c.written

end CertBody

/-- A certificate with its content hash. -/
structure Certificate where
  body : CertBody
  hash : Hash256
  hash_eq : hash = body.hash

/-- Fixes the fields and computes their hash. -/
def CertBody.freeze (c : CertBody) : Certificate := ⟨c, c.hash, rfl⟩

namespace Certificate

/-- Freezing the fields of a certificate gives it back. -/
@[simp] theorem freeze_body (c : Certificate) : c.body.freeze = c := by
  obtain ⟨b, h, rfl⟩ := c
  rfl

/-- True if the two are the same record, that is if their hashes agree. -/
def sameRecord (a b : Certificate) : Bool := a.hash == b.hash

/-- The canonical encoding, if every backward transfer can be encoded. -/
def encode? (c : Certificate) : Option (List UInt8) := c.body.encode?

/-- The number of bytes that can be written. -/
def size (c : Certificate) : Nat := c.body.written.length

/-- The total value of the outputs. -/
def valueOut (c : Certificate) : Except ValueError Amount :=
  Transaction.outputTotal c.body.outputs

/-- A header line, then one indented line for every output. -/
def display (c : Certificate) : String :=
  let b := c.body
  let header := "ScCertificate(hash=" ++ c.hash.shortDisplay 10 ++ ", ver=" ++
    toString b.version.toInt ++ ", sc_id=" ++ b.sidechain.display ++ ", epoch_number=" ++
    toString b.epoch.toInt ++ ", end_epoch_block_hash=" ++ b.endBlock.display ++
    ", vout.size=" ++ toString b.outputs.length ++ ")\n"
  header ++ String.join (b.outputs.map fun o => "    " ++ o.display ++ "\n")

end Certificate
end ShieldedLedger
