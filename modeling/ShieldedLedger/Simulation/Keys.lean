import ShieldedLedger.Simulation.Payments
import ShieldedLedger.Wallet.Views

/-!
# Keys by owner tags

A key store for simulations. Scripts are ours by the owner's tag, and notes are ours by their
commitment, once registered. The spending keys can be locked, which keeps nullifiers from being
derived.
-/

namespace ShieldedLedger.Simulation

/-- The tag of spendable outputs. -/
def ourTag : UInt8 := 1
/-- The tag of watched outputs. -/
def watchedTag : UInt8 := 3
/-- The tag of our change outputs, which are spendable. -/
def changeTag : UInt8 := 4

/-- A key store that goes by owner tags and, for notes, by their commitments. The spending keys are
unlocked if it is `available`. -/
structure Keys where
  notes : SortedMap Hash256 (PaymentAddress × Amount)
  available : Bool
  firstKeyTime : Option Int64

namespace Keys

/-- Unlocked keys without notes. -/
def fresh : Keys := ⟨SortedMap.empty, true, none⟩

/-- The nullifier of the note with a commitment. -/
def nullifierFor (commitment : Hash256) : Hash256 := commitment.map (· ^^^ 0x5a)

/-- Registers a note of ours. -/
def addNote (k : Keys) (commitment : Hash256) (address : PaymentAddress) (value : Amount) : Keys :=
  { k with notes := k.notes.insert commitment (address, value) }

/-- The ownership of a script by its tag. -/
def ownership (script : Script) : Ownership :=
  match script.pubkeyHash? with
  | none => .foreign
  | some hash =>
    if hash = Bytes.filled 20 ourTag ∨ hash = Bytes.filled 20 changeTag then .spendable
    else if hash = Bytes.filled 20 watchedTag then .watchOnly
    else .foreign

/-- The commitment at a place in a transaction. -/
def commitmentAt? (tx : Transaction) (joinSplit output : Nat) : Option Hash256 := do
  let js ← tx.body.joinSplits[joinSplit]?
  js.commitmentList[output]?

/-- The note registered for the commitment at a place in a transaction. -/
def registered? (k : Keys) (tx : Transaction) (joinSplit output : Nat) :
    Option (Hash256 × PaymentAddress × Amount) := do
  let commitment ← commitmentAt? tx joinSplit output
  let (address, value) ← k.notes.get? commitment
  return (commitment, address, value)

/-- The nullifier of a commitment, while the keys are unlocked. -/
def nullifierOf? (k : Keys) (commitment : Hash256) : Option Hash256 :=
  if k.available then some (nullifierFor commitment) else none

/-- The key store as the ledger sees it. -/
def view (k : Keys) : KeyView where
  ownership := ownership
  isChange o := o.script == ownerScript changeTag
  decryptNote? tx joinSplit output _ :=
    (k.registered? tx joinSplit output).map fun (commitment, address, _) =>
      ⟨address, k.nullifierOf? commitment⟩
  nullifierOf? _ tx location :=
    (k.registered? tx location.joinSplit.toNat location.output.toNat).bind fun (commitment, _) =>
      k.nullifierOf? commitment
  plaintextOf? address tx location :=
    (k.registered? tx location.joinSplit.toNat location.output.toNat).bind fun (_, owner, value) =>
      if owner = address then some ⟨value, []⟩ else none
  hasSpendingKey _ := k.available
  firstKeyTime? := k.firstKeyTime

end Keys
end ShieldedLedger.Simulation
