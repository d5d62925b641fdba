import Mathlib.Algebra.Group.Nat.Defs
import ShieldedLedger.Bytes.Integer

/-!
# Reading back written integers

An integer written in `width` bytes is read back modulo `256 ^ width`
(`ofLittleEndian_littleEndian`); with `littleEndian_ofLittleEndian` the two directions are inverse
on the integers that fit.
-/

namespace ShieldedLedger

/-- Reading what was written gives the value back, up to the width. -/
theorem ofLittleEndian_littleEndian (width value : Nat) :
    ofLittleEndian (littleEndian width value) = value % 256 ^ width := by
  induction width generalizing value with
  | zero => simp [littleEndian, ofLittleEndian, Nat.mod_one]
  | succ width ih =>
    simp only [littleEndian, ofLittleEndian, ih, UInt8.toNat_ofNat']
    rw [show (256 : Nat) ^ (width + 1) = 256 * 256 ^ width by rw [Nat.pow_succ, Nat.mul_comm],
      Nat.mod_mul]

end ShieldedLedger
