import ShieldedLedger.Simulation.Chain
import ShieldedLedger.Simulation.Keys
import ShieldedLedger.Wallet.Rescan
import ShieldedLedger.Wallet.Resend
import ShieldedLedger.Wallet.Selection

/-!
# A wallet beside a chain

A `Node` is a ledger together with the chain it follows, its keys and a clock. Connecting a block
grows the chain, hands every record of the block to the ledger and then moves the tip;
disconnecting goes back.
-/

namespace ShieldedLedger.Simulation

/-- A ledger with its surroundings. -/
structure Node where
  ledger : Ledger
  chain : Chain
  keys : Keys
  now : Int64

namespace Node

/-- The time on the clock at first. -/
def startTime : Int64 := 1600000000

/-- An empty ledger beside an empty chain. -/
def start (settings : Settings) : Node :=
  ⟨Ledger.empty settings Store.empty, Chain.empty, Keys.fresh, startTime⟩

/-- Sets the clock, which reads 0 at all times before the epoch. -/
def setClock (n : Node) (time : Int64) : Node := { n with now := if time < 0 then 0 else time }

/-- Runs an operation on the ledger. -/
def run {α : Type} (n : Node) (op : LedgerOp α) : Except Failure α × Node :=
  let (outcome, ledger) := n.ledger.run op
  (outcome, { n with ledger })

/-- Runs an operation on the ledger that asks for keys and chain. -/
def runView {α : Type} (n : Node) (op : KeyView → ChainView → LedgerOp α) :
    Except Failure α × Node := n.run (op n.keys.view n.chain.view)

/-- The name of the next block, if it is given no other. -/
def nextLabel (n : Node) : String := "h" ++ toString n.chain.blocks.length

/-- Connects a block to the chain only. -/
def push (n : Node) (label : String) (records : List Record) : ChainBlock × Node :=
  let (block, chain) := n.chain.push label records
  (block, { n with chain })

/-- Hands records seen in `block` to the ledger, in order. -/
def syncAll (n : Node) (records : List Record) (block : Option Block) :
    Except Failure Unit × Node :=
  n.runView fun keys chain => records.forM fun r => Ledger.sync keys chain n.now r block

/-- Connects a block to the chain and the ledger, and answers it. -/
def connect (n : Node) (label : String) (records : List Record) :
    ChainBlock × Except Failure Unit × Node :=
  let (b, n) := n.push label records
  let (outcome, n) := n.runView fun keys chain => do
    records.forM fun r => Ledger.sync keys chain n.now r (some b.block)
    Ledger.tipOn b.treeBefore (Ledger.chainTip b.index b.block true)
  (b, outcome, n)

/-- Connects `count` blocks without records, up to the first failure. Answers those connected to
the chain, the last first. -/
def mine (n : Node) : (count : Nat) → List ChainBlock × Except Failure Unit × Node
  | 0 => ([], .ok (), n)
  | count + 1 =>
    match n.connect n.nextLabel [] with
    | (b, .error e, n) => ([b], .error e, n)
    | (b, .ok (), n) =>
      let (blocks, outcome, n) := n.mine count
      (blocks ++ [b], outcome, n)

/-- Connects `count` unnamed blocks without records to the chain only. -/
def extend (n : Node) : (count : Nat) → Node
  | 0 => n
  | count + 1 => (n.push "" []).2.extend count

/-- Disconnects the tip from the chain, if there is one, and tells the ledger if `tell` is set.
Answers the block. -/
def disconnect? (n : Node) (tell : Bool) : Option (ChainBlock × Except Failure Unit × Node) :=
  n.chain.pop?.map fun (b, chain) =>
    let n := { n with chain }
    if tell then
      let (outcome, n) := n.run (Ledger.tipOn chain.tree (Ledger.chainTip b.index b.block false))
      (b, outcome, n)
    else (b, .ok (), n)

/-- A block equal to another but for its transactions: those among `records`. -/
def aliased (b : ChainBlock) (label : String) (records : List Record) : ChainBlock :=
  { b with
    label
    block := { b.block with transactions := records.filterMap Record.transaction? } }

/-- The chain as a rescan sees it that does not get one of the blocks or trees. -/
def sourceWithout (n : Node) (noBlock noTree : Option Int) : ChainSource :=
  let source := n.chain.source
  { source with
    blockAt? := fun height => if noBlock = some height then none else source.blockAt? height
    treeBefore? := fun height => if noTree = some height then none else source.treeBefore? height }

end Node
end ShieldedLedger.Simulation
