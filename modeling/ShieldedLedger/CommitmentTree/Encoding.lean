import ShieldedLedger.CommitmentTree.Witness
import ShieldedLedger.Encoding.CompactSize

/-!
# Stored trees and witnesses

A tree is written as its two optional leaves and the list of optional parents, a witness as its
tree, the list of completed subtrees and the optional cursor. The readers beside the writers refuse
a tree with more parents than its depth allows.
-/

namespace ShieldedLedger

/-- The 32 bytes of a node. -/
def encodeNode (node : Hash256) : List UInt8 := node.toList

/-- Reads a node. -/
def readNode : Reader Hash256 := Reader.take 32

namespace CommitmentTree

/-- The leaves, then the parents. -/
def encode (t : NoteTree) : List UInt8 :=
  encodeOptional encodeNode t.left ++ encodeOptional encodeNode t.right ++
    encodeList (encodeOptional encodeNode) t.parents

/-- Reads a tree. -/
def read : Reader NoteTree :=
  Reader.bind (Reader.optional readNode) fun left =>
  Reader.bind (Reader.optional readNode) fun right =>
  Reader.bind (readList (Reader.optional readNode)) fun parents =>
    if parents.length < treeDepth then Reader.pure ⟨left, right, parents⟩
    else Reader.fail .tooManyParents

end CommitmentTree

namespace Witness

/-- The tree, the completed subtrees and the cursor. -/
def encode (w : NoteWitness) : List UInt8 :=
  w.tree.encode ++ encodeList encodeNode w.filled ++ encodeOptional CommitmentTree.encode w.cursor

/-- Reads a witness. -/
def read : Reader NoteWitness :=
  Reader.bind CommitmentTree.read fun tree =>
  Reader.bind (readList readNode) fun filled =>
  Reader.bind (Reader.optional CommitmentTree.read) fun cursor =>
    Reader.pure ⟨tree, filled, cursor⟩

end Witness
end ShieldedLedger
