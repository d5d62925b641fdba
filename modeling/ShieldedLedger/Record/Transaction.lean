import ShieldedLedger.Record.Crosschain
import ShieldedLedger.Record.JoinSplit
import ShieldedLedger.Record.Transparent

/-!
# Transactions

A `TxBody` holds the fields of a transaction while it is put together. A `Transaction` is a body
with its content hash, computed once by `TxBody.freeze` and carried along with the fact that it is
the double hash of the body's encoding. Which fields are encoded depends on the version: crosschain
outputs only in the sidechain version, joinsplits only in the shielded ones, and the joinsplit key
and signature only if there are joinsplits. Two transactions are the same record exactly if their
hashes agree (`Transaction.sameRecord`).
-/

namespace ShieldedLedger

/-- Why a sum over a record cannot be given. -/
inductive ValueError
  /-- A value or a partial sum of the named quantity leaves the money range. -/
  | outOfRange (quantity : String)
  /-- An input spends an output that is not known. -/
  | missingInput (prevout : OutPoint)
deriving DecidableEq

/-- The kind of error, as reports name it. -/
def ValueError.name : ValueError → String
  | .outOfRange _ => "OutOfRange"
  | .missingInput _ => "MissingInput"

/-- What is wrong, in words. -/
def ValueError.message : ValueError → String
  | .outOfRange quantity => quantity ++ ": value out of range"
  | .missingInput prevout => "input " ++ prevout.display ++ " could not be resolved"

/-! ## Versions -/

namespace Version

/-- Transparent transactions. -/
def transparent : Int32 := 1
/-- The lowest version with joinsplits of the older proving scheme. -/
def phgr : Int32 := 2
/-- Joinsplits of the newer proving scheme. -/
def groth : Int32 := -3
/-- Transactions with crosschain outputs. -/
def sidechain : Int32 := -4
/-- Sidechain certificates. -/
def certificate : Int32 := -5

/-- True for the versions that carry joinsplits. -/
def isShielded (version : Int32) : Bool :=
  version ≥ phgr || version == groth || version == sidechain

end Version

/-! ## Transactions -/

/-- The fields of a transaction. It may be mined from the height or time `lockTime` on; the
joinsplits are signed with `joinSplitKey`. -/
structure TxBody where
  version : Int32
  inputs : List TxIn
  outputs : List TxOut
  creations : List SidechainCreation
  locks : List CertifierLock
  forwards : List ForwardTransfer
  lockTime : UInt32
  joinSplits : List JoinSplit
  joinSplitKey : Hash256
  joinSplitSig : Bytes 64
deriving DecidableEq

namespace TxBody

/-- A transparent transaction without inputs and outputs. -/
def blank : TxBody where
  version := Version.transparent
  inputs := []
  outputs := []
  creations := []
  locks := []
  forwards := []
  lockTime := 0
  joinSplits := []
  joinSplitKey := Bytes.zero
  joinSplitSig := Bytes.zero

/-- The crosschain outputs, where the version has them. -/
def encodeCrosschain (t : TxBody) : List UInt8 :=
  if t.version = Version.sidechain then
    encodeList SidechainCreation.encode t.creations ++ encodeList CertifierLock.encode t.locks ++
      encodeList ForwardTransfer.encode t.forwards
  else []

/-- The joinsplits with their key and signature, where the version has them. -/
def encodeShielded (t : TxBody) : List UInt8 :=
  if Version.isShielded t.version then
    encodeList JoinSplit.encode t.joinSplits ++
      (if t.joinSplits.isEmpty then [] else t.joinSplitKey.toList ++ t.joinSplitSig.toList)
  else []

/-- The canonical encoding. -/
def encode (t : TxBody) : List UInt8 :=
  encodeI32 t.version ++ encodeList TxIn.encode t.inputs ++ encodeList TxOut.encode t.outputs ++
    t.encodeCrosschain ++ encodeU32 t.lockTime ++ t.encodeShielded

/-- The double hash of the encoding. -/
def hash (t : TxBody) : Hash256 := sha256d t.encode

end TxBody

/-- A transaction with its content hash. -/
structure Transaction where
  body : TxBody
  hash : Hash256
  hash_eq : hash = body.hash

/-- Fixes the fields and computes their hash. -/
def TxBody.freeze (t : TxBody) : Transaction := ⟨t, t.hash, rfl⟩

namespace Transaction

instance : Inhabited Transaction := ⟨TxBody.blank.freeze⟩

/-- Freezing the fields of a transaction gives it back. -/
@[simp] theorem freeze_body (t : Transaction) : t.body.freeze = t := by
  obtain ⟨b, h, rfl⟩ := t
  rfl

/-- True if the two are the same record, that is if their hashes agree. -/
def sameRecord (a b : Transaction) : Bool := a.hash == b.hash

/-- The canonical encoding. -/
def encode (t : Transaction) : List UInt8 := t.body.encode

/-- The length of the encoding. -/
def size (t : Transaction) : Nat := t.encode.length

/-- True for the version with joinsplits of the newer proving scheme only. -/
def isGroth (t : Transaction) : Bool := t.body.version == Version.groth

/-- True for the version with crosschain outputs. -/
def isSidechain (t : Transaction) : Bool := t.body.version == Version.sidechain

/-- True for the versions that carry joinsplits. -/
def isShielded (t : Transaction) : Bool := Version.isShielded t.body.version

/-- A coinbase has exactly one input, and it refers to nothing. -/
def isCoinbase (t : Transaction) : Bool :=
  match t.body.inputs with
  | [i] => i.prevout.isNull
  | _ => false

/-- True if there are no crosschain outputs. -/
def hasNoCrosschain (t : Transaction) : Bool :=
  t.body.creations.isEmpty && t.body.locks.isEmpty && t.body.forwards.isEmpty

/-- The nullifiers every joinsplit reveals, in order. -/
def nullifiers (t : Transaction) : List Hash256 := t.body.joinSplits.flatMap JoinSplit.nullifierList

/-- The commitments every joinsplit produces, in order. -/
def commitments (t : Transaction) : List Hash256 :=
  t.body.joinSplits.flatMap JoinSplit.commitmentList

/-- All crosschain outputs: creations, then locks, then forward transfers. -/
def crosschain (t : Transaction) : List CrosschainOut :=
  t.body.creations.map .creation ++ t.body.locks.map .lock ++ t.body.forwards.map .forward

/-! ## Values -/

/-- The named quantity, or the error that it left the money range. -/
def inRangeOr (quantity : String) : Option Amount → Except ValueError Amount
  | some total => .ok total
  | none => .error (.outOfRange quantity)

/-- The sum of transparent outputs. -/
def outputTotal (outputs : List TxOut) : Except ValueError Amount :=
  inRangeOr "value_out" (Amount.sumInRange (outputs.map (·.value)))

/-- Value leaving the transparent pool: the outputs, then what the joinsplits take in, then the
crosschain outputs kind by kind. Every addition is checked. -/
def valueOut (t : Transaction) : Except ValueError Amount := do
  let total ← outputTotal t.body.outputs
  let total ← t.body.joinSplits.foldlM
    (fun total js => inRangeOr "value_out" (total.addInRange js.vpubOld)) total
  let kinds : List (List Amount) :=
    [t.body.creations.map (·.value), t.body.locks.map (·.value), t.body.forwards.map (·.value)]
  kinds.foldlM (fun total values => do
    let part ← inRangeOr "value_cc_out" (Amount.sumInRange values)
    inRangeOr "value_out" (total.addInRange part)) total

/-- Value the joinsplits release from the shielded pool. -/
def shieldedValueIn (t : Transaction) : Except ValueError Amount :=
  inRangeOr "join_split_value_in" (Amount.sumInRange (t.body.joinSplits.map (·.vpubNew)))

/-- Value entering the transaction: the outputs its inputs spend, looked up in `view`, then what
the joinsplits release. A coinbase takes nothing in. An input that cannot be resolved is an
error. -/
def valueIn (t : Transaction) (view : OutPoint → Option TxOut) : Except ValueError Amount :=
  if t.isCoinbase then .ok 0
  else do
    let total ← t.body.inputs.foldlM (fun total i =>
      match view i.prevout with
      | none => .error (.missingInput i.prevout)
      | some spent => inRangeOr "value_in" (total.addInRange spent.value)) 0
    let released ← t.shieldedValueIn
    inRangeOr "value_in" (total.addInRange released)

/-! ## Priority -/

/-- The size that counts for priority: of each input, a constant overhead and up to 110 bytes of
its script are left out, as long as something remains. A size of zero stands for the encoded
size. -/
def prioritySize (t : Transaction) (size : Nat) : Nat :=
  t.body.inputs.foldl (fun size i =>
    let overhead := 41 + min 110 i.script.size
    if size > overhead then size - overhead else size) (if size = 0 then t.size else size)

/-- Input priority per byte that counts. -/
def priority (t : Transaction) (inputPriority : Float) (size : Nat) : Float :=
  let size := t.prioritySize size
  if size = 0 then 0 else inputPriority / (UInt64.ofNat size).toFloat

/-! ## Display -/

/-- A header line, then one indented line for every input, output and, in the sidechain version,
crosschain output. -/
def display (t : Transaction) : String :=
  let b := t.body
  let counts := "vin.size=" ++ toString b.inputs.length ++ ", vout.size=" ++
    toString b.outputs.length
  let crosschainCounts := ", vsc_ccout.size=" ++ toString b.creations.length ++
    ", vcl_ccout.size=" ++ toString b.locks.length ++ ", vft_ccout.size=" ++
    toString b.forwards.length
  let header := "Transaction(hash=" ++ t.hash.shortDisplay 10 ++ ", ver=" ++
    toString b.version.toInt ++ ", " ++ counts ++ (if t.isSidechain then crosschainCounts else "")
    ++ ", lock_time=" ++ toString b.lockTime.toNat ++ ")\n"
  let crosschain := if t.isSidechain then t.crosschain.map CrosschainOut.display else []
  let items := b.inputs.map TxIn.display ++ b.outputs.map TxOut.display ++ crosschain
  header ++ String.join (items.map fun item => "    " ++ item ++ "\n")

end Transaction
end ShieldedLedger
