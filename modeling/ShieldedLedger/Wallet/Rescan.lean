import ShieldedLedger.Wallet.Sync
import ShieldedLedger.Wallet.Witnesses

/-!
# Rescans

A rescan walks the active chain from a height to the tip, takes in every record that concerns the
wallet and brings the witnesses up to date, block by block (`Ledger.rescan`). Blocks from long
before the oldest key was made are passed over.
-/

namespace ShieldedLedger

/-- What a rescan did: the records added or updated, in the order of the chain, the last block that
was dealt with completely, and whether it was stopped before the tip. -/
structure ScanSummary where
  added : List Hash256
  lastHeight : Option Int
  interrupted : Bool
deriving DecidableEq

/-- What a rescan goes by: the height to start from, where below zero is zero, whether entries that
are known already are updated, and whether it is to stop when it comes to a height. -/
structure ScanRequest where
  start : Int
  update : Bool
  stopAt : Int → Bool

/-- Blocks made this many seconds before the oldest key cannot hold anything of ours. -/
def keyTimeSlack : Int64 := 7200

namespace Ledger

variable (keys : KeyView) (chain : ChainView) (now : Int64) (source : ChainSource)

/-- True if a block was made long before the oldest key. -/
def isBeforeKeys (index : BlockIndex) : Bool :=
  keys.firstKeyTime?.any fun time => index.time < time - keyTimeSlack

/-- Takes in the records of a block that concern the wallet, and answers which those are. -/
def scanRecords (block : Block) (update : Bool) : LedgerOp (List Hash256) :=
  block.records.foldlM (fun added r => do
    let taken ← addIfRelevant keys chain now (Entry.ofRecord r) (some block) update
    return if taken then added ++ [r.hash] else added) []

/-- Runs a chain update on the ledger, with `tree` as the tree before the block. -/
def tipOn (tree : NoteTree) (op : TipOp Unit) : LedgerOp Unit := fun l =>
  let (outcome, s) := op ⟨l, tree⟩
  (outcome, s.ledger)

/-- Deals with one block, and answers which records were taken in. -/
def scanBlock (index : BlockIndex) (block : Block) (height : Int) (update : Bool) :
    LedgerOp (List Hash256) := do
  let added ← scanRecords keys chain now block update
  match source.treeBefore? height with
  | none => LedgerOp.refuse (.blockUnavailable height)
  | some tree =>
    tipOn tree (chainTip index block true)
    return added

/-- Walks over `count` blocks from `height` on. -/
def scanFrom (request : ScanRequest) :
    (count : Nat) → (height : Int) → ScanSummary → LedgerOp ScanSummary
  | 0, _, summary => return summary
  | count + 1, height, summary =>
    if request.stopAt height then return { summary with interrupted := true }
    else
      match source.blockAt? height with
      | none => LedgerOp.refuse (.blockUnavailable height)
      | some (index, block) =>
        if isBeforeKeys keys index then scanFrom request count (height + 1) summary
        else do
          let added ← scanBlock keys chain now source index block height request.update
          scanFrom request count (height + 1)
            { summary with added := summary.added ++ added, lastHeight := some height }

/-- Walks the chain of `source` up to its tip. -/
def rescan (request : ScanRequest) : LedgerOp ScanSummary :=
  let start := max request.start 0
  let count := (source.tipHeight + 1 - start).toNat
  scanFrom keys chain now source request count start ⟨[], none, false⟩

end Ledger
end ShieldedLedger
