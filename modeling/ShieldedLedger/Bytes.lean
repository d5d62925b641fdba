/-!
# Byte strings of a fixed width

`Bytes n` is a byte string of exactly `n` bytes: hashes, keys, proofs and ciphertexts are all of
this shape. Values are ordered by their bytes from the first to the last
(`Bytes.instTransOrd`, `Bytes.instLawfulEqOrd`).
-/

namespace ShieldedLedger

/-- A byte string of exactly `n` bytes. -/
structure Bytes (n : Nat) where
  toList : List UInt8
  length_toList : toList.length = n
deriving DecidableEq

namespace Bytes

variable {n : Nat}

/-- Two byte strings with the same bytes are equal. -/
theorem ext {a b : Bytes n} (h : a.toList = b.toList) : a = b := by
  cases a; cases b; cases h; rfl

/-- The bytes `bytes`, if there are exactly `n` of them. -/
def ofList? (n : Nat) (bytes : List UInt8) : Option (Bytes n) :=
  if h : bytes.length = n then some ⟨bytes, h⟩ else none

/-- The same byte `n` times. -/
def filled (n : Nat) (byte : UInt8) : Bytes n :=
  ⟨List.replicate n byte, List.length_replicate⟩

/-- All bytes zero. -/
def zero : Bytes n := filled n 0

instance : Inhabited (Bytes n) := ⟨zero⟩

/-- True if every byte is zero. -/
def isZero (b : Bytes n) : Bool := b.toList.all (· == 0)

/-- The bytes last to first. -/
def reverse (b : Bytes n) : Bytes n :=
  ⟨b.toList.reverse, by simp [b.length_toList]⟩

/-- Applies `f` to every byte. -/
def map (f : UInt8 → UInt8) (b : Bytes n) : Bytes n :=
  ⟨b.toList.map f, by simp [b.length_toList]⟩

/-- Replaces the byte at position `i`; a position beyond the width changes nothing. -/
def set (b : Bytes n) (i : Nat) (byte : UInt8) : Bytes n :=
  ⟨b.toList.set i byte, by simp [b.length_toList]⟩

/-- The byte at position `i`, zero beyond the width. -/
def byteAt (b : Bytes n) (i : Nat) : UInt8 := b.toList.getD i 0

/-- Byte strings are compared byte by byte, from the first. -/
instance : Ord (Bytes n) := ⟨fun a b => compare a.toList b.toList⟩

instance instTransOrd : Std.TransOrd (Bytes n) where
  eq_swap {a b} := @Std.OrientedCmp.eq_swap (List UInt8) compare _ a.toList b.toList
  isLE_trans {a b c} := @Std.TransCmp.isLE_trans (List UInt8) compare _ a.toList b.toList c.toList

instance instLawfulEqOrd : Std.LawfulEqOrd (Bytes n) where
  compare_self {a} := @Std.ReflCmp.compare_self (List UInt8) compare _ a.toList
  eq_of_compare {_ _} h := ext (Std.LawfulEqCmp.eq_of_compare h)

/-- A zero byte string is `zero`. -/
theorem isZero_iff {b : Bytes n} : b.isZero = true ↔ b = zero := by
  constructor
  · intro h
    apply ext
    have hb : ∀ x ∈ b.toList, x = 0 := by
      simpa [isZero] using h
    have := List.eq_replicate_of_mem hb
    rw [b.length_toList] at this
    exact this
  · rintro rfl
    simp [isZero, zero, filled]

end Bytes

/-- A 32-byte value: record and block hashes, identifiers, nullifiers, commitments, keys. -/
abbrev Hash256 := Bytes 32

namespace Hash256

instance instTransOrd : Std.TransOrd Hash256 := Bytes.instTransOrd

instance instLawfulEqOrd : Std.LawfulEqOrd Hash256 := Bytes.instLawfulEqOrd

end Hash256

/-- A 20-byte value: public key hashes. -/
abbrev Hash160 := Bytes 20

end ShieldedLedger
