import ShieldedLedger.Encoding.CompactSize
import ShieldedLedger.Hash.Sha256
import ShieldedLedger.Money
import ShieldedLedger.Bytes.Hex

/-!
# Crosschain outputs

Value leaves the main ledger towards a sidechain in one of three ways: the sidechain's creation, a
certifier's bond, or a forward transfer. Each must carry a positive amount in range, and the
amounts are accumulated into a total that must stay in range as well
(`Amount.accumulateCrosschain`).
-/

namespace ShieldedLedger

/-- Creates a sidechain and funds it: `value` is received at `address` there. The length of an epoch
is in blocks. -/
structure SidechainCreation where
  sidechain : Hash256
  value : Amount
  address : Hash256
  epochLength : Int32
  customData : List UInt8
deriving DecidableEq

/-- Locks `value` on a sidechain as the bond of a certifier, who has `address` there. -/
structure CertifierLock where
  sidechain : Hash256
  value : Amount
  address : Hash256
  activeFromEpoch : Int64
deriving DecidableEq

/-- Forwards value to an address on an existing sidechain. -/
structure ForwardTransfer where
  sidechain : Hash256
  value : Amount
  address : Hash256
deriving DecidableEq

/-- The sidechain, the epoch length, the value, the address and the data. -/
def SidechainCreation.encode (o : SidechainCreation) : List UInt8 :=
  o.sidechain.toList ++ encodeI32 o.epochLength ++ encodeI64 o.value ++ o.address.toList ++
    encodeBytes o.customData

/-- The value, the address, the sidechain and the epoch. -/
def CertifierLock.encode (o : CertifierLock) : List UInt8 :=
  encodeI64 o.value ++ o.address.toList ++ o.sidechain.toList ++ encodeI64 o.activeFromEpoch

/-- The value, the address and the sidechain. -/
def ForwardTransfer.encode (o : ForwardTransfer) : List UInt8 :=
  encodeI64 o.value ++ o.address.toList ++ o.sidechain.toList

/-- The first thirty digits of an address in storage order. -/
def displayAddress (address : Hash256) : String :=
  String.ofList ((hexChars address.toList).take 30)

/-- The displayed form. -/
def SidechainCreation.display (o : SidechainCreation) : String :=
  "ScCreationOut(sc_id=" ++ o.sidechain.display ++ ", withdrawal_epoch_length=" ++
    toString o.epochLength.toInt ++ ", value=" ++ o.value.format ++ ", address=" ++
    displayAddress o.address ++ ", custom_data=[" ++ hexEncode o.customData ++ "])"

/-- The displayed form. -/
def CertifierLock.display (o : CertifierLock) : String :=
  "CertifierLockOut(value=" ++ o.value.format ++ ", address=" ++ displayAddress o.address ++
    ", sc_id=" ++ o.sidechain.display ++ ", active_from_withdrawal_epoch=" ++
    toString o.activeFromEpoch.toInt ++ ")"

/-- The displayed form. -/
def ForwardTransfer.display (o : ForwardTransfer) : String :=
  "ForwardTransferOut(value=" ++ o.value.format ++ ", address=" ++ displayAddress o.address ++
    ", sc_id=" ++ o.sidechain.display ++ ")"

/-- An output of any of the three kinds. -/
inductive CrosschainOut
  | creation (output : SidechainCreation)
  | lock (output : CertifierLock)
  | forward (output : ForwardTransfer)
deriving DecidableEq

namespace CrosschainOut

/-- The sidechain the value is sent to. -/
def sidechain : CrosschainOut → Hash256
  | creation o => o.sidechain
  | lock o => o.sidechain
  | forward o => o.sidechain

/-- The value leaving the main ledger. -/
def value : CrosschainOut → Amount
  | creation o => o.value
  | lock o => o.value
  | forward o => o.value

/-- The receiver on the sidechain. -/
def address : CrosschainOut → Hash256
  | creation o => o.address
  | lock o => o.address
  | forward o => o.address

/-- The encoding of its kind. -/
def encode : CrosschainOut → List UInt8
  | creation o => o.encode
  | lock o => o.encode
  | forward o => o.encode

/-- The displayed form of its kind. -/
def display : CrosschainOut → String
  | creation o => o.display
  | lock o => o.display
  | forward o => o.display

/-- The content hash. -/
def hash (o : CrosschainOut) : Hash256 := sha256d o.encode

end CrosschainOut

namespace Amount

/-- Adds a crosschain amount to the running total. The first part of the answer tells whether the
amount is positive and in range and the new total is in range. The total moves even when it is the
new total that is refused, unless it does not fit a 64-bit number. -/
def accumulateCrosschain (total value : Amount) : Bool × Amount :=
  if value = 0 || !value.inRange then (false, total)
  else
    let sum := total.toInt + value.toInt
    if sum > 9223372036854775807 then (false, total)
    else ((total + value).inRange, total + value)

end Amount
end ShieldedLedger
