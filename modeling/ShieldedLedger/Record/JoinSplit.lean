import ShieldedLedger.Bytes.Hex
import ShieldedLedger.Bytes.Integer
import ShieldedLedger.Money

/-!
# Joinsplits

A `JoinSplit` is a shielded transfer: it consumes two notes, produces two, and may move transparent
value into the shielded pool (`vpubOld`) or out of it (`vpubNew`). Its proof belongs to one of two
proving schemes, which differ in width.
-/

namespace ShieldedLedger

/-- A proof of one of the two proving schemes, the older PHGR13 and the newer Groth16. -/
inductive SproutProof
  | phgr (proof : Bytes 296)
  | groth (proof : Bytes 192)
deriving DecidableEq

namespace SproutProof

/-- The proof bytes. -/
def bytes : SproutProof → List UInt8
  | phgr proof => proof.toList
  | groth proof => proof.toList

/-- The encoded width. -/
def size (p : SproutProof) : Nat := p.bytes.length

/-- A proof of zero bytes, of the newer scheme if `groth` is set. -/
def blank (useGroth : Bool) : SproutProof :=
  if useGroth then groth Bytes.zero else phgr Bytes.zero

/-- The scheme and the first eight bytes, for inspection. -/
def inspect : SproutProof → String
  | phgr proof => "PhgrProof(" ++ hexEncode (proof.toList.take 8) ++ "..)"
  | groth proof => "GrothProof(" ++ hexEncode (proof.toList.take 8) ++ "..)"

end SproutProof

/-- A shielded transfer, which consumes two notes and produces two. Transparent value enters the
pool (`vpubOld`) or leaves it (`vpubNew`). -/
structure JoinSplit where
  vpubOld : Amount
  vpubNew : Amount
  /-- Root of the commitment tree the consumed notes are proven against. -/
  anchor : Hash256
  nullifiers : Hash256 × Hash256
  commitments : Hash256 × Hash256
  ephemeralKey : Hash256
  /-- Seed that binds the joinsplit to its transaction's signature. -/
  randomSeed : Hash256
  /-- Tags that bind the spending keys to the signature. -/
  macs : Hash256 × Hash256
  proof : SproutProof
  ciphertexts : Bytes 601 × Bytes 601
deriving DecidableEq

namespace JoinSplit

/-- Both nullifiers, in order. -/
def nullifierList (js : JoinSplit) : List Hash256 := [js.nullifiers.1, js.nullifiers.2]

/-- Both commitments, in order. -/
def commitmentList (js : JoinSplit) : List Hash256 := [js.commitments.1, js.commitments.2]

/-- A joinsplit of zeros with a blank proof. -/
def blank (useGroth : Bool) : JoinSplit where
  vpubOld := 0
  vpubNew := 0
  anchor := Bytes.zero
  nullifiers := (Bytes.zero, Bytes.zero)
  commitments := (Bytes.zero, Bytes.zero)
  ephemeralKey := Bytes.zero
  randomSeed := Bytes.zero
  macs := (Bytes.zero, Bytes.zero)
  proof := SproutProof.blank useGroth
  ciphertexts := (Bytes.zero, Bytes.zero)

/-- The fields in order. The proof's scheme is not written. -/
def encode (js : JoinSplit) : List UInt8 :=
  encodeI64 js.vpubOld ++ encodeI64 js.vpubNew ++ js.anchor.toList ++
    js.nullifiers.1.toList ++ js.nullifiers.2.toList ++
    js.commitments.1.toList ++ js.commitments.2.toList ++
    js.ephemeralKey.toList ++ js.randomSeed.toList ++
    js.macs.1.toList ++ js.macs.2.toList ++ js.proof.bytes ++
    js.ciphertexts.1.toList ++ js.ciphertexts.2.toList

end JoinSplit
end ShieldedLedger
