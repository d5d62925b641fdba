import ShieldedLedger.Bytes.Hex

/-!
# Output scripts

Only the standard pay-to-public-key-hash script is built (`Script.payToPubkeyHash`), and only the
hash it carries is read back (`Script.pubkeyHash?`): the first `hash160` opcode must be followed by
a push of twenty bytes. What the opcodes mean is no concern of the ledger.
-/

namespace ShieldedLedger

/-- The raw bytes of a script. -/
structure Script where
  bytes : List UInt8
deriving DecidableEq

namespace Script

instance : Inhabited Script := ⟨⟨[]⟩⟩

/-- Duplicates the top stack item. -/
def opDup : UInt8 := 0x76
/-- Hashes the top stack item to twenty bytes. -/
def opHash160 : UInt8 := 0xa9
/-- Fails unless the two top stack items are equal. -/
def opEqualVerify : UInt8 := 0x88
/-- Checks a signature. -/
def opCheckSig : UInt8 := 0xac

/-- The number of bytes. -/
def size (s : Script) : Nat := s.bytes.length

/-- Pays to whoever holds the key with this hash. -/
def payToPubkeyHash (hash : Hash160) : Script :=
  ⟨opDup :: opHash160 :: 20 :: hash.toList ++ [opEqualVerify, opCheckSig]⟩

/-- The twenty bytes pushed right after the first `hash160` opcode, if the script is of that
form. -/
def pubkeyHash? (s : Script) : Option Hash160 :=
  match (s.bytes.dropWhile (· != opHash160)).drop 1 with
  | [] => none
  | count :: data => if count = 20 then Bytes.ofList? 20 (data.take 20) else none

/-- A standard script carries the hash it was built from. -/
@[simp] theorem pubkeyHash?_payToPubkeyHash (hash : Hash160) :
    (payToPubkeyHash hash).pubkeyHash? = some hash := by
  have h := hash.length_toList
  simp [payToPubkeyHash, pubkeyHash?, opDup, opHash160, Bytes.ofList?, List.dropWhile, h]

/-- The script for inspection. -/
def inspect (s : Script) : String := "Script(" ++ hexEncode s.bytes ++ ")"

end Script

/-- What a caller is told about a script without a public key hash. -/
def noPubkeyHashMessage : String := "script carries no pay-to-pubkey-hash destination"

end ShieldedLedger
