import ShieldedLedger.Block
import ShieldedLedger.Wallet.Note
import ShieldedLedger.Wallet.Ownership

/-!
# What the ledger sees of its surroundings

The ledger asks three collaborators: the active chain (`ChainView`, and `ChainSource` where blocks
and trees are needed as well) and the key store (`KeyView`). They are handed to each operation, so
the same ledger can be asked under different chains and keys.

Heights are integers without bound, and so are the depths that are computed from them
(`Ledger.depthOf`). Where both are kept in 32-bit words, they are the same numbers as long as
`tipHeight - height + 1` is in the range of these words.
-/

namespace ShieldedLedger

/-- Read access to the active chain: the height of the tip, -1 for an empty chain, and the height
and the time of its blocks. -/
structure ChainView where
  tipHeight : Int
  heightOf? : Hash256 → Option Int
  timeOf? : Hash256 → Option Int64

/-- A chain that also hands out its blocks by height, and the commitment tree as it was before each.
-/
structure ChainSource extends ChainView where
  blockAt? : Int → Option (BlockIndex × Block)
  treeBefore? : Int → Option NoteTree

/-- A note the keys could decrypt, with its nullifier if the spending key is available. -/
structure DecryptedNote where
  address : PaymentAddress
  nullifier : Option Hash256
deriving DecidableEq

/-- Questions to the key store. A nullifier can be told if the spending key is available; blocks
before the time of the first key cannot concern us. -/
structure KeyView where
  ownership : Script → Ownership
  /-- True for outputs that pay our own change addresses. -/
  isChange : TxOut → Bool
  /-- Tries every viewing key on an output (second number) of a joinsplit (first number). -/
  decryptNote? : Transaction → Nat → Nat → (signatureHash : Hash256) → Option DecryptedNote
  nullifierOf? : PaymentAddress → Transaction → NoteLocation → Option Hash256
  plaintextOf? : PaymentAddress → Transaction → NoteLocation → Option NotePlaintext
  hasSpendingKey : PaymentAddress → Bool
  firstKeyTime? : Option Int64

end ShieldedLedger
