import Mathlib.Tactic.NormNum
import ShieldedLedger.Bytes.IntegerLaws
import ShieldedLedger.Encoding.CompactSize

/-!
# What an encoding tells

An encoding tells a field of what it encodes if the field can be found out from any byte string
that starts with the encoding, and so can the place where the encoding ends (`Tells`). Encodings of
a fixed width tell what they are injective in (`Tells.of_width`), encodings one after the other tell
what each of them tells (`Tells.append`), and a counted list tells of every item what the encoding
of an item tells (`Tells.encodeList`).

Counts are read back as they were written (`readAnyCount_encodeCount`), as long as eight bytes hold
them.
-/

namespace ShieldedLedger

/-! ## Integers and counts -/

/-- Integers that fit the width are told apart by their bytes. -/
theorem eq_of_littleEndian_eq {width a b : Nat} (ha : a < 256 ^ width) (hb : b < 256 ^ width)
    (h : littleEndian width a = littleEndian width b) : a = b := by
  have read := congrArg ofLittleEndian h
  rwa [ofLittleEndian_littleEndian, ofLittleEndian_littleEndian, Nat.mod_eq_of_lt ha,
    Nat.mod_eq_of_lt hb] at read

/-- Bytes are taken off the front of what they were put before. -/
theorem Reader.take_append {n : Nat} (bytes : Bytes n) (rest : List UInt8) :
    Reader.take n (bytes.toList ++ rest) = .ok (bytes, rest) := by
  obtain ⟨bytes, rfl⟩ := bytes
  simp [Reader.take]

/-- A count in a wide form is read back if it fits the form and no shorter form holds it. -/
theorem readWideCount_littleEndian {width least n : Nat} (hleast : least ≤ n)
    (hfit : n < 256 ^ width) (rest : List UInt8) :
    readWideCount width least (littleEndian width n ++ rest) = .ok (n, rest) := by
  have taken := Reader.take_append ⟨littleEndian width n, length_littleEndian width n⟩ rest
  simp only [readWideCount, Reader.bind, taken, ofLittleEndian_littleEndian,
    Nat.mod_eq_of_lt hfit, if_neg (Nat.not_lt.2 hleast), Reader.pure]

/-- The first byte of a count says which form it has. -/
theorem readAnyCount_cons (flag : UInt8) (bytes : List UInt8) : readAnyCount (flag :: bytes) =
    if flag < 253 then .ok (flag.toNat, bytes)
    else if flag = 253 then readWideCount 2 253 bytes
    else if flag = 254 then readWideCount 4 0x10000 bytes
    else readWideCount 8 0x100000000 bytes := by
  simp only [readAnyCount, Reader.bind, Reader.byte]
  split <;> [rfl; skip]
  split <;> [rfl; skip]
  split <;> rfl

/-- A count is read back from its shortest form. -/
theorem readAnyCount_encodeCount {n : Nat} (h : n < UInt64.size) (rest : List UInt8) :
    readAnyCount (encodeCount n ++ rest) = .ok (n, rest) := by
  unfold encodeCount
  split
  next hn =>
    have toNat : (UInt8.ofNat n).toNat = n := by
      rw [UInt8.toNat_ofNat', Nat.mod_eq_of_lt (by omega)]
    have small : UInt8.ofNat n < 253 := UInt8.lt_iff_toNat_lt.2 (by rw [toNat]; exact hn)
    rw [littleEndian, List.cons_append, readAnyCount_cons, if_pos small, toNat]
    rfl
  split
  next hn hn' =>
    rw [List.cons_append, readAnyCount_cons, if_neg (by decide), if_pos rfl]
    exact readWideCount_littleEndian (Nat.not_lt.1 hn) (by norm_num; exact hn') rest
  split
  next hn hn' =>
    rw [List.cons_append, readAnyCount_cons, if_neg (by decide), if_neg (by decide), if_pos rfl]
    exact readWideCount_littleEndian (Nat.not_lt.1 hn) (by norm_num; exact hn') rest
  next hn =>
    rw [List.cons_append, readAnyCount_cons, if_neg (by decide), if_neg (by decide),
      if_neg (by decide)]
    exact readWideCount_littleEndian (Nat.not_lt.1 hn) (by norm_num; exact h) rest

/-- Two counts that start the same byte string are equal. -/
theorem encodeCount_append_inj {m n : Nat} (hm : m < UInt64.size) (hn : n < UInt64.size)
    {rest rest' : List UInt8} (h : encodeCount m ++ rest = encodeCount n ++ rest') :
    m = n ∧ rest = rest' := by
  have read := readAnyCount_encodeCount hm rest
  rw [h, readAnyCount_encodeCount hn rest'] at read
  simpa [eq_comm] using read

/-! ## Telling a field -/

/-- Two byte strings that start with encodings agree only if the encoded values agree in `field`
and what follows them agrees. Byte strings too long for a count of eight bytes are left aside:
such a count cannot say how long the lists in them are. -/
def Tells {α κ : Type} (encode : α → List UInt8) (field : α → κ) : Prop :=
  ∀ ⦃a b : α⦄ ⦃rest rest' : List UInt8⦄, (encode a ++ rest).length < UInt64.size →
    encode a ++ rest = encode b ++ rest' → field a = field b ∧ rest = rest'

namespace Tells

variable {α β κ κ' : Type} {encode encode' : α → List UInt8} {field : α → κ} {field' : α → κ'}

/-- An encoding of a fixed width tells what it is injective in. -/
theorem of_width (width : Nat) (hwidth : ∀ a, (encode a).length = width)
    (hinj : ∀ a b, encode a = encode b → field a = field b) : Tells encode field := by
  intro a b rest rest' _ h
  obtain ⟨hencode, hrest⟩ := List.append_inj h ((hwidth a).trans (hwidth b).symm)
  exact ⟨hinj a b hencode, hrest⟩

/-- What follows from a field is told with it. -/
theorem imp (h : Tells encode field) (hfield : ∀ {a b}, field a = field b → field' a = field' b) :
    Tells encode field' := by
  intro a b rest rest' hsize heq
  obtain ⟨hsame, hrest⟩ := h hsize heq
  exact ⟨hfield hsame, hrest⟩

/-- What the encoding of a part tells is told of the whole. -/
theorem comp (h : Tells encode field) (part : β → α) :
    Tells (fun b => encode (part b)) (fun b => field (part b)) :=
  fun _ _ _ _ hsize heq => h hsize heq

/-- Two encodings one after the other tell what each of them tells. -/
theorem append (h : Tells encode field) (h' : Tells encode' field') :
    Tells (fun a => encode a ++ encode' a) (fun a => (field a, field' a)) := by
  intro a b rest rest' hsize heq
  simp only [List.append_assoc] at hsize heq
  obtain ⟨hfield, heq'⟩ := h hsize heq
  have hsize' : (encode' a ++ rest).length < UInt64.size := by
    rw [List.length_append] at hsize
    omega
  obtain ⟨hfield', hrest⟩ := h' hsize' heq'
  exact ⟨Prod.ext hfield hfield', hrest⟩

/-- As many encoded items tell of each what its encoding tells. -/
theorem flatMap (h : Tells encode field) : ∀ {as bs : List α} {rest rest' : List UInt8},
    as.length = bs.length → (as.flatMap encode ++ rest).length < UInt64.size →
      as.flatMap encode ++ rest = bs.flatMap encode ++ rest' →
        as.map field = bs.map field ∧ rest = rest'
  | [], [], _, _, _, _, heq => ⟨rfl, heq⟩
  | a :: as, b :: bs, rest, rest', hlen, hsize, heq => by
    simp only [List.flatMap_cons, List.append_assoc] at hsize heq
    obtain ⟨hfield, heq⟩ := h hsize heq
    have hsize : (as.flatMap encode ++ rest).length < UInt64.size := by
      rw [List.length_append] at hsize
      omega
    obtain ⟨hfields, hrest⟩ := h.flatMap (Nat.succ.inj hlen) hsize heq
    exact ⟨congrArg₂ List.cons hfield hfields, hrest⟩

end Tells

/-! ## Encodings that tell their value -/

/-- The encoding of an unsigned word tells the word. -/
theorem tells_encodeU32 : Tells encodeU32 id := by
  refine .of_width 4 (fun _ => length_littleEndian 4 _) fun a b h => ?_
  exact UInt32.toNat_inj.1 (eq_of_littleEndian_eq a.toNat_lt b.toNat_lt h)

/-- The encoding of a signed word tells the word. -/
theorem tells_encodeI32 : Tells encodeI32 id := by
  refine .of_width 4 (fun _ => length_littleEndian 4 _) fun ⟨a⟩ ⟨b⟩ h => ?_
  exact congrArg Int32.ofUInt32 (UInt32.toNat_inj.1 (eq_of_littleEndian_eq a.toNat_lt b.toNat_lt h))

/-- The encoding of an amount tells the amount. -/
theorem tells_encodeI64 : Tells encodeI64 id := by
  refine .of_width 8 (fun _ => length_littleEndian 8 _) fun ⟨a⟩ ⟨b⟩ h => ?_
  exact congrArg Int64.ofUInt64 (UInt64.toNat_inj.1 (eq_of_littleEndian_eq a.toNat_lt b.toNat_lt h))

/-- Bytes of a fixed number tell themselves. -/
theorem tells_toList {n : Nat} : Tells (Bytes.toList (n := n)) id :=
  .of_width n Bytes.length_toList fun _ _ => Bytes.ext

/-- Counted bytes tell which they are. -/
theorem tells_encodeBytes : Tells encodeBytes id := by
  intro a b rest rest' hsize heq
  have hlength := congrArg List.length heq
  simp only [encodeBytes, List.append_assoc, List.length_append] at hsize hlength heq
  obtain ⟨hcount, heq⟩ := encodeCount_append_inj (by omega) (by omega) heq
  exact List.append_inj heq hcount

/-- A list is no longer than its items' bytes if every item has some. -/
theorem length_le_length_flatMap {α : Type} {encode : α → List UInt8} (h : ∀ a, encode a ≠ [])
    (items : List α) : items.length ≤ (items.flatMap encode).length := by
  induction items with
  | nil => exact Nat.le_refl _
  | cons a rest ih =>
    have hpos := List.length_pos_iff.2 (h a)
    simp only [List.length_cons, List.flatMap_cons, List.length_append]
    omega

/-- A counted list tells of every item what the encoding of an item tells. -/
theorem Tells.encodeList {α κ : Type} {encode : α → List UInt8} {field : α → κ}
    (h : Tells encode field) (hne : ∀ a, encode a ≠ []) :
    Tells (ShieldedLedger.encodeList encode) (List.map field) := by
  intro as bs rest rest' hsize heq
  have hlength := congrArg List.length heq
  simp only [ShieldedLedger.encodeList, List.append_assoc, List.length_append] at hsize hlength heq
  have has := length_le_length_flatMap hne as
  have hbs := length_le_length_flatMap hne bs
  obtain ⟨hcount, heq⟩ := encodeCount_append_inj (by omega) (by omega) heq
  refine h.flatMap hcount ?_ heq
  rw [List.length_append]
  omega

end ShieldedLedger
