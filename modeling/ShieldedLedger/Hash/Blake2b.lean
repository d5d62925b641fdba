import ShieldedLedger.Bytes
import ShieldedLedger.Bytes.Integer
import ShieldedLedger.Hash.Words

/-!
# BLAKE2b

`blake2b256` is BLAKE2b with a 32-byte digest, no key, and a 16-byte personalization that keeps
hashes made for different purposes apart.
-/

namespace ShieldedLedger
namespace Blake2b

/-- The initialization vector. -/
def initial : List UInt64 :=
  [0x6a09e667f3bcc908, 0xbb67ae8584caa73b, 0x3c6ef372fe94f82b, 0xa54ff53a5f1d36f1,
   0x510e527fade682d1, 0x9b05688c2b3e6c1f, 0x1f83d9abfb41bd6b, 0x5be0cd19137e2179]

/-- The message word permutations of the ten distinct rounds. -/
def permutations : List (List Nat) :=
  [[0, 1, 2, 3, 4, 5, 6, 7, 8, 9, 10, 11, 12, 13, 14, 15],
   [14, 10, 4, 8, 9, 15, 13, 6, 1, 12, 0, 2, 11, 7, 5, 3],
   [11, 8, 12, 0, 5, 2, 15, 13, 10, 14, 3, 6, 7, 1, 9, 4],
   [7, 9, 3, 1, 13, 12, 11, 14, 2, 6, 5, 10, 4, 0, 15, 8],
   [9, 0, 5, 7, 2, 4, 10, 15, 14, 1, 11, 12, 6, 8, 3, 13],
   [2, 12, 6, 10, 0, 11, 8, 3, 4, 13, 7, 5, 15, 14, 1, 9],
   [12, 5, 1, 15, 14, 13, 4, 10, 0, 7, 6, 3, 9, 2, 8, 11],
   [13, 11, 7, 14, 12, 1, 3, 9, 5, 0, 15, 4, 8, 6, 2, 10],
   [6, 15, 14, 9, 11, 3, 0, 8, 12, 2, 13, 7, 1, 4, 10, 5],
   [10, 2, 8, 4, 7, 6, 1, 5, 15, 11, 9, 14, 3, 12, 13, 0]]

/-- Mixes two message words into four words of the working vector. -/
def mix (v : Array UInt64) (a b c d : Nat) (x y : UInt64) : Array UInt64 :=
  let va := v.getD a 0 + v.getD b 0 + x
  let vd := rotateRight64 (v.getD d 0 ^^^ va) 32
  let vc := v.getD c 0 + vd
  let vb := rotateRight64 (v.getD b 0 ^^^ vc) 24
  let va := va + vb + y
  let vd := rotateRight64 (vd ^^^ va) 16
  let vc := vc + vd
  let vb := rotateRight64 (vb ^^^ vc) 63
  (((v.setIfInBounds a va).setIfInBounds b vb).setIfInBounds c vc).setIfInBounds d vd

/-- The columns and diagonals mixed in each round, in order. -/
def quadruples : List (Nat × Nat × Nat × Nat) :=
  [(0, 4, 8, 12), (1, 5, 9, 13), (2, 6, 10, 14), (3, 7, 11, 15),
   (0, 5, 10, 15), (1, 6, 11, 12), (2, 7, 8, 13), (3, 4, 9, 14)]

/-- One round with its message word permutation. -/
def round (m : Array UInt64) (v : Array UInt64) (permutation : List Nat) : Array UInt64 :=
  (quadruples.zip (groupsOf 2 permutation)).foldl (fun v step =>
    match step with
    | ((a, b, c, d), [i, j]) => mix v a b c d (m.getD i 0) (m.getD j 0)
    | _ => v) v

/-- Folds one block of sixteen words into the state; `count` bytes have been hashed with it. -/
def compress (h : List UInt64) (block : List UInt64) (count : Nat) (last : Bool) : List UInt64 :=
  let m := block.toArray
  let v := (h ++ initial).toArray
  let v := v.setIfInBounds 12 (v.getD 12 0 ^^^ UInt64.ofNat count)
  let v := v.setIfInBounds 13 (v.getD 13 0 ^^^ UInt64.ofNat (count >>> 64))
  let v := if last then v.setIfInBounds 14 (~~~(v.getD 14 0)) else v
  let v := (permutations ++ permutations.take 2).foldl (round m) v
  (h.zip (List.range 8)).map fun (x, i) => x ^^^ v.getD i 0 ^^^ v.getD (i + 8) 0

/-- Hashes the 128-byte blocks of a message of `length` bytes, the last one filled up with zeros. -/
def hashBlocks (length : Nat) : (h : List UInt64) → (count : Nat) → List (List UInt8) → List UInt64
  | h, _, [] => h
  | h, count, [block] =>
    let filled := block ++ List.replicate (128 - (length - count)) 0
    compress h (littleEndianWords filled) length true
  | h, count, block :: rest =>
    hashBlocks length (compress h (littleEndianWords block) (count + 128) false) (count + 128) rest

/-- The parameter block of an unkeyed 32-byte digest, as words. -/
def parameters (personal : Bytes 16) : List UInt64 :=
  0x01010020 :: List.replicate 5 0 ++ littleEndianWords personal.toList

end Blake2b

/-- BLAKE2b-256 of `message` under a personalization. -/
def blake2b256 (personal : Bytes 16) (message : List UInt8) : Hash256 :=
  let start := (Blake2b.initial.zip (Blake2b.parameters personal)).map fun (x, p) => x ^^^ p
  let blocks := if message.isEmpty then [[]] else groupsOf 128 message
  let final := Blake2b.hashBlocks message.length start 0 blocks
  ((Bytes.ofList? 32 ((final.take 4).flatMap littleEndianBytes))).getD Bytes.zero

end ShieldedLedger
