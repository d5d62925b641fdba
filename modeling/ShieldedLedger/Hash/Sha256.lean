import ShieldedLedger.Bytes
import ShieldedLedger.Bytes.Integer
import ShieldedLedger.Hash.Words

/-!
# SHA-256

`sha256` hashes a byte string, `sha256d` hashes it twice: the content hash of every record is the
double hash of its encoding. `compressPair` is one bare compression of the 64-byte block that two
32-byte values fill, with no padding.
-/

namespace ShieldedLedger
namespace Sha256

/-- The eight words of the chaining state. -/
structure Chaining where
  a : UInt32
  b : UInt32
  c : UInt32
  d : UInt32
  e : UInt32
  f : UInt32
  g : UInt32
  h : UInt32

/-- The initial state: fractional parts of the square roots of the first eight primes. -/
def initial : Chaining :=
  ⟨0x6a09e667, 0xbb67ae85, 0x3c6ef372, 0xa54ff53a, 0x510e527f, 0x9b05688c, 0x1f83d9ab, 0x5be0cd19⟩

/-- The round constants: fractional parts of the cube roots of the first 64 primes. -/
def roundConstants : List UInt32 :=
  [0x428a2f98, 0x71374491, 0xb5c0fbcf, 0xe9b5dba5, 0x3956c25b, 0x59f111f1, 0x923f82a4, 0xab1c5ed5,
   0xd807aa98, 0x12835b01, 0x243185be, 0x550c7dc3, 0x72be5d74, 0x80deb1fe, 0x9bdc06a7, 0xc19bf174,
   0xe49b69c1, 0xefbe4786, 0x0fc19dc6, 0x240ca1cc, 0x2de92c6f, 0x4a7484aa, 0x5cb0a9dc, 0x76f988da,
   0x983e5152, 0xa831c66d, 0xb00327c8, 0xbf597fc7, 0xc6e00bf3, 0xd5a79147, 0x06ca6351, 0x14292967,
   0x27b70a85, 0x2e1b2138, 0x4d2c6dfc, 0x53380d13, 0x650a7354, 0x766a0abb, 0x81c2c92e, 0x92722c85,
   0xa2bfe8a1, 0xa81a664b, 0xc24b8b70, 0xc76c51a3, 0xd192e819, 0xd6990624, 0xf40e3585, 0x106aa070,
   0x19a4c116, 0x1e376c08, 0x2748774c, 0x34b0bcb5, 0x391c0cb3, 0x4ed8aa4a, 0x5b9cca4f, 0x682e6ff3,
   0x748f82ee, 0x78a5636f, 0x84c87814, 0x8cc70208, 0x90befffa, 0xa4506ceb, 0xbef9a3f7, 0xc67178f2]

/-- Appends the word that follows from the sixteen before it to a message schedule. -/
def extendSchedule (schedule : Array UInt32) (t : Nat) : Array UInt32 :=
  let x := schedule.getD (t + 1) 0
  let y := schedule.getD (t + 14) 0
  let s0 := rotateRight32 x 7 ^^^ rotateRight32 x 18 ^^^ (x >>> 3)
  let s1 := rotateRight32 y 17 ^^^ rotateRight32 y 19 ^^^ (y >>> 10)
  schedule.push (schedule.getD t 0 + s0 + schedule.getD (t + 9) 0 + s1)

/-- The 64 schedule words of a block of sixteen words. -/
def schedule (block : List UInt32) : List UInt32 :=
  ((List.range 48).foldl extendSchedule block.toArray).toList

/-- One round, with its constant and schedule word. -/
def round (s : Chaining) (kw : UInt32 × UInt32) : Chaining :=
  let s1 := rotateRight32 s.e 6 ^^^ rotateRight32 s.e 11 ^^^ rotateRight32 s.e 25
  let choice := (s.e &&& s.f) ^^^ (~~~s.e &&& s.g)
  let t1 := s.h + s1 + choice + kw.1 + kw.2
  let s0 := rotateRight32 s.a 2 ^^^ rotateRight32 s.a 13 ^^^ rotateRight32 s.a 22
  let majority := (s.a &&& s.b) ^^^ (s.a &&& s.c) ^^^ (s.b &&& s.c)
  ⟨t1 + (s0 + majority), s.a, s.b, s.c, s.d + t1, s.e, s.f, s.g⟩

/-- Folds one block of sixteen words into the state. -/
def compress (s : Chaining) (block : List UInt32) : Chaining :=
  let r := (roundConstants.zip (schedule block)).foldl round s
  ⟨s.a + r.a, s.b + r.b, s.c + r.c, s.d + r.d, s.e + r.e, s.f + r.f, s.g + r.g, s.h + r.h⟩

/-- The state as 32 bytes. -/
def Chaining.digest (s : Chaining) : Hash256 :=
  ⟨bigEndianBytes s.a ++ bigEndianBytes s.b ++ bigEndianBytes s.c ++ bigEndianBytes s.d ++
    bigEndianBytes s.e ++ bigEndianBytes s.f ++ bigEndianBytes s.g ++ bigEndianBytes s.h, rfl⟩

/-- A one bit, zeros, and the length in bits, up to a whole number of 64-byte blocks. -/
def pad (message : List UInt8) : List UInt8 :=
  let zeros := (119 - message.length % 64) % 64
  message ++ 0x80 :: List.replicate zeros 0 ++ bigEndian 8 (8 * message.length)

end Sha256

/-- SHA-256 of a byte string. -/
def sha256 (message : List UInt8) : Hash256 :=
  ((groupsOf 16 (bigEndianWords (Sha256.pad message))).foldl Sha256.compress Sha256.initial).digest

/-- SHA-256 applied twice, the content hash of records and the node hash of block trees. -/
def sha256d (message : List UInt8) : Hash256 := sha256 (sha256 message).toList

/-- Double hash of the concatenation of two hashes. -/
def hashPair (left right : Hash256) : Hash256 := sha256d (left.toList ++ right.toList)

/-- One compression of the block `left ++ right` from the initial state. -/
def compressPair (left right : Hash256) : Hash256 :=
  (Sha256.compress Sha256.initial (bigEndianWords (left.toList ++ right.toList))).digest

end ShieldedLedger
