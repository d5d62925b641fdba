import ShieldedLedger.Bytes.Hex
import ShieldedLedger.Bytes.IntegerLaws
import ShieldedLedger.Hash.Blake2b
import ShieldedLedger.Hash.Sha256
import ShieldedLedger.Encoding.CompactSize
import ShieldedLedger.Money
import ShieldedLedger.SortedMap
import ShieldedLedger.Record.Crosschain
import ShieldedLedger.Record.JoinSplit
import ShieldedLedger.Record.Transparent
import ShieldedLedger.Record
import ShieldedLedger.Validation
import ShieldedLedger.Block
import ShieldedLedger.CommitmentTree.Encoding
import ShieldedLedger.Settings
import ShieldedLedger.Wallet.Entry
import ShieldedLedger.Wallet.Views
import ShieldedLedger.Wallet.Spending
import ShieldedLedger.Wallet.Amounts
import ShieldedLedger.Wallet.Sync
import ShieldedLedger.Wallet.Rescan
import ShieldedLedger.Wallet.Resend
import ShieldedLedger.Random.SplitMix
import ShieldedLedger.Wallet.Selection
import ShieldedLedger.Simulation.Node
import ShieldedLedger.Simulation.Scripted
import ShieldedLedger.Proofs.DoubleSpend
import ShieldedLedger.Proofs.Witnesses.Follower
import ShieldedLedger.Proofs.Amounts.Stale
import ShieldedLedger.Proofs.Amounts.Trust
import ShieldedLedger.Proofs.Conflicts
import ShieldedLedger.Proofs.Witnesses.Notes
import ShieldedLedger.Proofs.Witnesses.Unwind
import ShieldedLedger.Proofs.Rescan.Unfinished
import ShieldedLedger.Proofs.Rescan.Repair
import ShieldedLedger.Proofs.Notes.Nullifiers
import ShieldedLedger.Proofs.Links
import ShieldedLedger.Proofs.Persistence
import ShieldedLedger.Proofs.Selection.Preselected
import ShieldedLedger.Proofs.Encoding.Unambiguous
import ShieldedLedger.Proofs.Record.Unambiguous
import ShieldedLedger.Proofs.Validation.Agreement
import ShieldedLedger.Proofs.Record.PinnedOutputs
import ShieldedLedger.Proofs.CommitmentTree.Stored
import ShieldedLedger.Proofs.CommitmentTree.Shape
import ShieldedLedger.Proofs.Repeats
import ShieldedLedger.Proofs.Shuffle
import ShieldedLedger.Proofs.Selection.Arithmetic
import ShieldedLedger.Proofs.Selection.CoinbaseNeed
import ShieldedLedger.Proofs.Amounts.Maturity
import ShieldedLedger.Proofs.Witnesses.Stopped
