import ShieldedLedger.Record.Transaction

/-!
# Simple payments

Transactions that do one thing each: pay an owner from a coinbase or from an output, shield value
into a note, or spend a note. Owners are told apart by a one-byte tag.
-/

namespace ShieldedLedger.Simulation

/-- The script that pays an owner. -/
def ownerScript (owner : UInt8) : Script := Script.payToPubkeyHash (Bytes.filled 20 owner)

/-- The output that pays `value` to an owner. -/
def payment (owner : UInt8) (value : Amount) : TxOut := ⟨value, ownerScript owner, false⟩

/-- A coinbase that pays an owner. The `nonce` tells coinbases apart. -/
def coinbasePaying (owner : UInt8) (value : Amount) (nonce : UInt8) : TxBody :=
  { TxBody.blank with
    inputs := [TxIn.coinbase ⟨[nonce, nonce]⟩]
    outputs := [payment owner value] }

/-- The unlocking script of simple payments: it pushes the number one. -/
def unlockScript : Script := ⟨[0x51]⟩

/-- Spends an output and pays an owner. -/
def spendOf (prevout : OutPoint) (owner : UInt8) (value : Amount) : TxBody :=
  { TxBody.blank with
    inputs := [⟨prevout, unlockScript, 0xffffffff⟩]
    outputs := [payment owner value] }

/-- Shields `value` into a note with the commitment `seed`; the second note is nobody's. -/
def shieldedPayment (seed : Hash256) (value : Amount) : TxBody :=
  let revealed := fun byte => (Bytes.filled 32 byte : Hash256).set 0 (seed.byteAt 0)
  { TxBody.blank with
    version := Version.groth
    inputs := [⟨⟨seed, 9⟩, unlockScript, 0xffffffff⟩]
    joinSplits := [{ JoinSplit.blank true with
      vpubOld := value
      commitments := (seed, seed.set 31 (seed.byteAt 31 ^^^ 0xff))
      nullifiers := (revealed 0xa0, revealed 0xa1) }]
    joinSplitKey := Bytes.filled 32 0x33 }

/-- Spends the note with a nullifier and pays an owner. -/
def nullifierSpend (nullifier : Hash256) (owner : UInt8) (value : Amount) : TxBody :=
  { TxBody.blank with
    version := Version.groth
    outputs := [payment owner value]
    joinSplits := [{ JoinSplit.blank true with
      vpubNew := value
      nullifiers := (nullifier, Bytes.filled 32 0xee)
      commitments := ((Bytes.filled 32 0xc0).set 0 (nullifier.byteAt 0),
        (Bytes.filled 32 0xc1).set 0 (nullifier.byteAt 1)) }] }

end ShieldedLedger.Simulation
