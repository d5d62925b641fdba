import ShieldedLedger.Encoding.CompactSize
import ShieldedLedger.Hash.Sha256
import ShieldedLedger.Money
import ShieldedLedger.Record.OutPoint
import ShieldedLedger.Script

/-!
# Transparent inputs and outputs

A `TxIn` spends the output it refers to, a `TxOut` holds a value behind a script. Value that
returns from a sidechain is a `BackwardTransfer`, which becomes an output paying to a public key
hash (`BackwardTransfer.toOutput`) and is read back from one (`TxOut.backwardTransfer?`).
-/

namespace ShieldedLedger

/-- A transparent input: the output it spends, the unlocking script and the sequence number, all
ones when final. -/
structure TxIn where
  prevout : OutPoint
  script : Script
  sequence : UInt32
deriving DecidableEq

namespace TxIn

/-- The synthetic input of a coinbase. -/
def coinbase (script : Script) : TxIn := ⟨OutPoint.null, script, 0xffffffff⟩

/-- The reference, the script, the sequence number. -/
def encode (i : TxIn) : List UInt8 :=
  i.prevout.encode ++ encodeBytes i.script.bytes ++ encodeU32 i.sequence

/-- The displayed form. -/
def display (i : TxIn) : String :=
  let script := hexEncode i.script.bytes
  let what :=
    if i.prevout.isNull then ", coinbase " ++ script
    else ", script_sig=" ++ String.ofList (script.toList.take 24)
  let sequence :=
    if i.sequence = 0xffffffff then "" else ", sequence=" ++ toString i.sequence.toNat
  "TxIn(" ++ i.prevout.display ++ what ++ sequence ++ ")"

end TxIn

/-- A transparent output: its value and the condition on spending it. -/
structure TxOut where
  value : Amount
  script : Script
  /-- True if the output was produced by a backward transfer. -/
  fromBackwardTransfer : Bool
deriving DecidableEq

/-- Value returning from a sidechain to a public key hash. -/
structure BackwardTransfer where
  value : Amount
  pubkeyHash : Hash160
deriving DecidableEq

namespace TxOut

/-- The value and the script. Where the output comes from is not part of it. -/
def encode (o : TxOut) : List UInt8 := encodeI64 o.value ++ encodeBytes o.script.bytes

/-- The content hash. -/
def hash (o : TxOut) : Hash256 := sha256d o.encode

/-- The displayed form. -/
def display (o : TxOut) : String :=
  "TxOut(value=" ++ o.value.format ++ ", script_pubkey=" ++
    String.ofList ((hexChars o.script.bytes).take 30) ++ ")"

/-- The backward transfer an output stands for, if its script carries a public key hash. -/
def backwardTransfer? (o : TxOut) : Option BackwardTransfer :=
  o.script.pubkeyHash?.map fun pubkeyHash => ⟨o.value, pubkeyHash⟩

end TxOut

namespace BackwardTransfer

/-- The value and the receiver. -/
def encode (b : BackwardTransfer) : List UInt8 := encodeI64 b.value ++ b.pubkeyHash.toList

/-- The output that pays the transfer out. -/
def toOutput (b : BackwardTransfer) : TxOut :=
  ⟨b.value, Script.payToPubkeyHash b.pubkeyHash, true⟩

/-- The transfer is read back from its output. -/
@[simp] theorem backwardTransfer?_toOutput (b : BackwardTransfer) :
    b.toOutput.backwardTransfer? = some b := by
  simp [TxOut.backwardTransfer?, toOutput]

end BackwardTransfer
end ShieldedLedger
