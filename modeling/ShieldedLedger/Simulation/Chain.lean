import ShieldedLedger.Wallet.Views

/-!
# A chain in memory

A chain for simulations: blocks are connected at the tip and disconnected again. The hash of a
block tells how many were made before it, and its time depends on its height only.
-/

namespace ShieldedLedger.Simulation

/-- A connected block with its name and the commitment tree before it. -/
structure ChainBlock where
  label : String
  index : BlockIndex
  block : Block
  treeBefore : NoteTree

/-- An active chain: the blocks, the tip first, the commitment tree after it, and the number of
blocks ever made. -/
structure Chain where
  blocks : List ChainBlock
  tree : NoteTree
  made : UInt32

namespace Chain

/-- A chain without blocks. -/
def empty : Chain := ⟨[], CommitmentTree.empty, 0⟩

/-- The height of the tip; -1 for an empty chain. -/
def tipHeight (c : Chain) : Int := c.blocks.length - 1

/-- The time of the first block. -/
def genesisTime : Int64 := 1500000000

/-- The seconds from one block to the next. -/
def blockInterval : Int64 := 150

/-- The hash of the `number`-th block ever made. -/
def blockHash (number : UInt32) : Hash256 :=
  ⟨encodeU32 number ++ List.replicate 28 0xb0, by simp [encodeU32, length_littleEndian]⟩

/-- Connects a block that holds `records`, and answers it. -/
def push (c : Chain) (label : String) (records : List Record) : ChainBlock × Chain :=
  let height := c.blocks.length
  let made := c.made + 1
  let time := genesisTime + blockInterval * Int64.ofNat height
  let block : Block :=
    { hash := blockHash made
      time
      transactions := records.filterMap Record.transaction?
      certificates := records.filterMap Record.certificate? }
  let connected : ChainBlock := ⟨label, ⟨height, block.hash, time⟩, block, c.tree⟩
  let commitments := block.transactions.flatMap Transaction.commitments
  (connected, ⟨connected :: c.blocks, (c.tree.appendAll sproutHash commitments).1, made⟩)

/-- Disconnects the tip, if there is one, and answers it. -/
def pop? (c : Chain) : Option (ChainBlock × Chain) :=
  match c.blocks with
  | [] => none
  | tip :: rest => some (tip, { c with blocks := rest, tree := tip.treeBefore })

/-- The connected block at a height. -/
def blockAt? (c : Chain) (height : Int) : Option ChainBlock :=
  if height < 0 then none else c.blocks.reverse[height.toNat]?

/-- The connected block with a hash. -/
def find? (c : Chain) (hash : Hash256) : Option ChainBlock := c.blocks.find? (·.index.hash == hash)

/-- The chain as the ledger sees it. -/
def view (c : Chain) : ChainView where
  tipHeight := c.tipHeight
  heightOf? hash := (c.find? hash).map (·.index.height)
  timeOf? hash := (c.find? hash).map (·.index.time)

/-- The chain with its blocks and trees. -/
def source (c : Chain) : ChainSource :=
  { c.view with
    blockAt? := fun height => (c.blockAt? height).map fun b => (b.index, b.block)
    treeBefore? := fun height => (c.blockAt? height).map (·.treeBefore) }

/-- The locator of the tip, with every block. -/
def locator (c : Chain) : BlockLocator := ⟨c.blocks.map (·.index.hash)⟩

end Chain
end ShieldedLedger.Simulation
