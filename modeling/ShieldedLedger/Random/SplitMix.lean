import ShieldedLedger.Random

/-!
# A seeded source

`SplitMix` is the SplitMix64 generator: the state grows by a fixed odd number, and each output is
the state after two rounds of mixing. A number below a bound is the high half of the product of the
bound with 32 random bits; products whose low half lies beyond the largest multiple of the bound
are drawn again, so every number is as likely as any other.
-/

namespace ShieldedLedger

/-- The state of a SplitMix64 generator. -/
structure SplitMix where
  state : UInt64
deriving DecidableEq

namespace SplitMix

/-- The next 64 random bits. -/
def next (g : SplitMix) : UInt64 × SplitMix :=
  let state := g.state + 0x9e3779b97f4a7c15
  let z := (state ^^^ (state >>> 30)) * 0xbf58476d1ce4e5b9
  let z := (z ^^^ (z >>> 27)) * 0x94d049bb133111eb
  (z ^^^ (z >>> 31), ⟨state⟩)

/-- The largest acceptable low half of a product with `bound`: one less than `bound` shifted up as
far as 32 bits hold it. -/
def zone (bound : Nat) : Nat := bound <<< (31 - Nat.log2 bound) - 1

/-- Draws a number up to `last`, from at most `tries` products. -/
def draw (last : Nat) : (tries : Nat) → SplitMix → Fin (last + 1) × SplitMix
  | 0, g => (0, g)
  | tries + 1, g =>
    let (word, g) := g.next
    let product := (word >>> 32).toNat * (last + 1)
    if product % 0x100000000 ≤ zone (last + 1) then
      (Fin.ofNat (last + 1) (product / 0x100000000), g)
    else draw last tries g

/-- More products than are ever refused in a row: at least half of all products are acceptable. -/
def maxTries : Nat := 256

instance : RandomSource SplitMix where
  bit g :=
    let (word, g) := g.next
    (word < 0x8000000000000000, g)
  upTo last g := draw last maxTries g

end SplitMix
end ShieldedLedger
