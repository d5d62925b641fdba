/-!
# Integers as bytes

`littleEndian w v` writes `v` modulo `256 ^ w` in `w` bytes, least significant first, and
`ofLittleEndian` reads it back: writing what was read gives the bytes back
(`littleEndian_ofLittleEndian`). The fixed-width encodings of signed and unsigned words are
instances of it.
-/

namespace ShieldedLedger

/-- The `width` low bytes of `value`, least significant first. -/
def littleEndian : (width : Nat) → (value : Nat) → List UInt8
  | 0, _ => []
  | width + 1, value => UInt8.ofNat value :: littleEndian width (value / 256)

/-- The number whose base-256 digits are `bytes`, least significant first. -/
def ofLittleEndian : List UInt8 → Nat
  | [] => 0
  | byte :: rest => byte.toNat + 256 * ofLittleEndian rest

/-- A little-endian number has the width asked for, whether the value fits or not. -/
@[simp] theorem length_littleEndian (width value : Nat) :
    (littleEndian width value).length = width := by
  induction width generalizing value with
  | zero => rfl
  | succ width ih => simp [littleEndian, ih]

/-- Writing what was read gives the bytes back. -/
theorem littleEndian_ofLittleEndian (bytes : List UInt8) :
    littleEndian bytes.length (ofLittleEndian bytes) = bytes := by
  induction bytes with
  | nil => rfl
  | cons byte rest ih =>
    have hb : byte.toNat < 256 := byte.toNat_lt
    have h1 : (byte.toNat + 256 * ofLittleEndian rest) / 256 = ofLittleEndian rest := by omega
    have h2 : UInt8.ofNat (byte.toNat + 256 * ofLittleEndian rest) = byte := by
      apply UInt8.toNat_inj.1
      simp only [UInt8.toNat_ofNat']
      omega
    simp only [List.length_cons, littleEndian, ofLittleEndian, h1, h2, ih]

/-- The `width` low bytes of `value`, most significant first. -/
def bigEndian (width value : Nat) : List UInt8 := (littleEndian width value).reverse

/-- Four bytes, least significant first. -/
def encodeU32 (value : UInt32) : List UInt8 := littleEndian 4 value.toNat

/-- Eight bytes, least significant first. -/
def encodeU64 (value : UInt64) : List UInt8 := littleEndian 8 value.toNat

/-- Four bytes in two's complement, least significant first. -/
def encodeI32 (value : Int32) : List UInt8 := littleEndian 4 value.toUInt32.toNat

/-- Eight bytes in two's complement, least significant first. -/
def encodeI64 (value : Int64) : List UInt8 := littleEndian 8 value.toUInt64.toNat

end ShieldedLedger
