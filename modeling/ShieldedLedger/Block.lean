import ShieldedLedger.Merkle
import ShieldedLedger.Record

/-!
# Blocks

A block holds the records it confirms: transactions first, the coinbase foremost, certificates
after them. Its Merkle tree has their hashes for leaves, in that order.
-/

namespace ShieldedLedger

/-- The place of a block in the chain: its height, where the first block has height zero, its hash
and its time in seconds. -/
structure BlockIndex where
  height : Int
  hash : Hash256
  time : Int64
deriving DecidableEq

/-- Block hashes from the tip backwards, enough to find where two chains part. -/
structure BlockLocator where
  hashes : List Hash256
deriving DecidableEq

/-- A block with its time in seconds, and what it holds: transactions, then certificates. -/
structure Block where
  hash : Hash256
  time : Int64
  transactions : List Transaction
  certificates : List Certificate

namespace Block

/-- The records, in the order of the tree's leaves. -/
def records (b : Block) : List Record :=
  b.transactions.map .transaction ++ b.certificates.map .certificate

/-- The leaves of the Merkle tree. -/
def leafHashes (b : Block) : List Hash256 :=
  b.transactions.map (·.hash) ++ b.certificates.map (·.hash)

/-- The first position of a hash among the leaves. -/
def leafIndex? (b : Block) (hash : Hash256) : Option Nat := b.leafHashes.findIdx? (· == hash)

/-- The Merkle root; zero for an empty block. -/
def merkleRoot (b : Block) : Hash256 := (Merkle.root? hashPair b.leafHashes).getD Bytes.zero

/-- The branch of the leaf at `index`. -/
def merkleBranch (b : Block) (index : Nat) : List Hash256 :=
  Merkle.branch hashPair b.leafHashes index

end Block

/-- The root that a leaf hash at `index` and a branch imply. -/
def checkMerkleBranch (leaf : Hash256) (branch : List Hash256) (index : Nat) : Hash256 :=
  Merkle.fold hashPair leaf branch index

end ShieldedLedger
