/-!
# Bytes as machine words

The block hashes read their input as words: SHA-256 as 32-bit words, most significant byte first,
BLAKE2b as 64-bit words, least significant byte first.
-/

namespace ShieldedLedger

/-- Rotates a 32-bit word to the right. -/
@[inline] def rotateRight32 (x : UInt32) (by_ : UInt32) : UInt32 :=
  (x >>> by_) ||| (x <<< (32 - by_))

/-- Rotates a 64-bit word to the right. -/
@[inline] def rotateRight64 (x : UInt64) (by_ : UInt64) : UInt64 :=
  (x >>> by_) ||| (x <<< (64 - by_))

/-- Groups of four bytes as words, most significant byte first. An incomplete last group is
dropped. -/
def bigEndianWords : List UInt8 → List UInt32
  | a :: b :: c :: d :: rest =>
    ((a.toUInt32 <<< 24) ||| (b.toUInt32 <<< 16) ||| (c.toUInt32 <<< 8) ||| d.toUInt32)
      :: bigEndianWords rest
  | _ => []

/-- Groups of eight bytes as words, least significant byte first. An incomplete last group is
dropped. -/
def littleEndianWords : List UInt8 → List UInt64
  | a :: b :: c :: d :: e :: f :: g :: h :: rest =>
    (a.toUInt64 ||| (b.toUInt64 <<< 8) ||| (c.toUInt64 <<< 16) ||| (d.toUInt64 <<< 24)
      ||| (e.toUInt64 <<< 32) ||| (f.toUInt64 <<< 40) ||| (g.toUInt64 <<< 48)
      ||| (h.toUInt64 <<< 56)) :: littleEndianWords rest
  | _ => []

/-- The four bytes of a word, most significant first. -/
def bigEndianBytes (x : UInt32) : List UInt8 :=
  [(x >>> 24).toUInt8, (x >>> 16).toUInt8, (x >>> 8).toUInt8, x.toUInt8]

/-- The eight bytes of a word, least significant first. -/
def littleEndianBytes (x : UInt64) : List UInt8 :=
  [x.toUInt8, (x >>> 8).toUInt8, (x >>> 16).toUInt8, (x >>> 24).toUInt8,
    (x >>> 32).toUInt8, (x >>> 40).toUInt8, (x >>> 48).toUInt8, (x >>> 56).toUInt8]

/-- The items in groups of `size`, the last one possibly shorter. No group is empty. -/
def groupsOf {α : Type} (size : Nat) : List α → List (List α)
  | [] => []
  | item :: rest => (item :: rest.take (size - 1)) :: groupsOf size (rest.drop (size - 1))
termination_by items => items.length
decreasing_by simp only [List.length_drop, List.length_cons]; omega

end ShieldedLedger
