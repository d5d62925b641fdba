import Mathlib.Tactic.NormNum
import ShieldedLedger.Bytes.IntegerLaws
import ShieldedLedger.Encoding.CompactSize

/-!
# Nothing but an encoding is read

A reader is exact if what it takes off a byte string is the encoding of what it reads
(`Reader.Exact`), so that no value is read from two spellings. Counts are, as each form of a count
is refused for what a shorter one holds (`readCount_exact`), and so are flags. Hence optional values
and counted lists are read exactly if their values are (`Reader.Exact.optional`,
`Reader.Exact.list`).
-/

namespace ShieldedLedger

/-- A number that was read fits the bytes it was read from. -/
theorem ofLittleEndian_lt (bytes : List UInt8) : ofLittleEndian bytes < 256 ^ bytes.length := by
  have read := ofLittleEndian_littleEndian bytes.length (ofLittleEndian bytes)
  rw [littleEndian_ofLittleEndian] at read
  rw [read]
  exact Nat.mod_lt _ (Nat.pow_pos (by decide))

namespace Reader

variable {α β : Type}

/-- Two readers in a row succeed if the first one does and the second one on what is left. -/
theorem bind_eq_ok_iff {r : Reader α} {f : α → Reader β} {bytes rest : List UInt8} {b : β} :
    Reader.bind r f bytes = .ok (b, rest) ↔
      ∃ a mid, r bytes = .ok (a, mid) ∧ f a mid = .ok (b, rest) := by
  unfold Reader.bind
  cases r bytes with
  | error e => simp
  | ok read => exact ⟨fun h => ⟨_, _, rfl, h⟩, by rintro ⟨_, _, ⟨⟩, h⟩; exact h⟩

/-- A reader that takes nothing succeeds with its answer and leaves everything. -/
theorem pure_eq_ok_iff {a b : α} {bytes rest : List UInt8} :
    Reader.pure a bytes = .ok (b, rest) ↔ a = b ∧ bytes = rest := by
  simp [Reader.pure]

/-- What the reader takes off a byte string is the encoding of what it reads. -/
def Exact (r : Reader α) (encode : α → List UInt8) : Prop :=
  ∀ ⦃bytes : List UInt8⦄ ⦃a : α⦄ ⦃rest : List UInt8⦄,
    r bytes = .ok (a, rest) → bytes = encode a ++ rest

namespace Exact

variable {r : Reader α} {encode : α → List UInt8}

theorem byte : Exact Reader.byte ([·]) := by
  intro bytes b rest h
  cases bytes with
  | nil => cases h
  | cons _ _ => cases h; rfl

theorem take (n : Nat) : Exact (Reader.take n) Bytes.toList := by
  intro bytes taken rest h
  unfold Reader.take at h
  split at h
  next => cases h; exact (List.take_append_drop n bytes).symm
  next => cases h

/-- An optional value is read exactly if the value is. -/
theorem optional (hr : Exact r encode) :
    Exact (Reader.optional r) (encodeOptional encode) := by
  intro bytes o rest hread
  obtain ⟨flag, mid, hflag, h⟩ := bind_eq_ok_iff.1 hread
  rw [byte hflag]
  split at h
  next hnone =>
    obtain ⟨rfl, rfl⟩ := pure_eq_ok_iff.1 h
    rw [hnone]
    rfl
  split at h
  next hsome =>
    obtain ⟨a, mid', hvalue, h⟩ := bind_eq_ok_iff.1 h
    obtain ⟨rfl, rfl⟩ := pure_eq_ok_iff.1 h
    rw [hsome, hr hvalue]
    rfl
  next => cases h

/-- As many values as are asked for are read, each exactly if one is. -/
theorem replicate (hr : Exact r encode) :
    ∀ {count : Nat} {bytes rest : List UInt8} {items : List α},
    Reader.replicate r count bytes = .ok (items, rest) →
      items.length = count ∧ bytes = items.flatMap encode ++ rest
  | 0, _, _, _, h => by
    obtain ⟨rfl, rfl⟩ := pure_eq_ok_iff.1 h
    exact ⟨rfl, rfl⟩
  | count + 1, _, _, _, h => by
    obtain ⟨a, mid, hfirst, h⟩ := bind_eq_ok_iff.1 h
    obtain ⟨items, mid', hothers, h⟩ := bind_eq_ok_iff.1 h
    obtain ⟨rfl, rfl⟩ := pure_eq_ok_iff.1 h
    obtain ⟨hcount, rfl⟩ := replicate hr hothers
    refine ⟨congrArg (· + 1) hcount, ?_⟩
    rw [hr hfirst, List.flatMap_cons, List.append_assoc]

end Exact
end Reader

/-! ## Counts -/

/-- A count in a wide form is taken off in that form, is no smaller than the form is for, and fits
it. -/
theorem readWideCount_exact {width least n : Nat} {bytes rest : List UInt8}
    (h : readWideCount width least bytes = .ok (n, rest)) :
    bytes = littleEndian width n ++ rest ∧ least ≤ n ∧ n < 256 ^ width := by
  obtain ⟨taken, mid, htaken, h⟩ := Reader.bind_eq_ok_iff.1 h
  have hbytes := Reader.Exact.take width htaken
  have spelled := littleEndian_ofLittleEndian taken.toList
  have fits := ofLittleEndian_lt taken.toList
  rw [taken.length_toList] at spelled fits
  split at h
  next => cases h
  next hleast =>
    obtain ⟨rfl, rfl⟩ := Reader.pure_eq_ok_iff.1 h
    exact ⟨by rw [hbytes, spelled], Nat.not_lt.1 hleast, fits⟩

/-- A count is read from its shortest form only. -/
theorem readAnyCount_exact : Reader.Exact readAnyCount encodeCount := by
  intro bytes n rest hread
  obtain ⟨flag, mid, hflag, h⟩ := Reader.bind_eq_ok_iff.1 hread
  rw [Reader.Exact.byte hflag, encodeCount]
  split at h
  next hsmall =>
    obtain ⟨rfl, rfl⟩ := Reader.pure_eq_ok_iff.1 h
    have small : flag.toNat < 253 := UInt8.lt_iff_toNat_lt.1 hsmall
    rw [if_pos small]
    simp [littleEndian]
  split at h
  next hwidth =>
    obtain ⟨rfl, least, fits⟩ := readWideCount_exact h
    rw [if_neg (by omega), if_pos (by norm_num at fits; exact fits), hwidth]
    rfl
  split at h
  next hwidth =>
    obtain ⟨rfl, least, fits⟩ := readWideCount_exact h
    rw [if_neg (by omega), if_neg (by omega), if_pos (by norm_num at fits; exact fits), hwidth]
    rfl
  next hsmall h253 h254 =>
    obtain ⟨rfl, least, -⟩ := readWideCount_exact h
    have hwidth : flag = 255 := by
      have := flag.toNat_lt
      rw [UInt8.lt_iff_toNat_lt] at hsmall
      rw [← UInt8.toNat_inj] at h253 h254 ⊢
      simp only [UInt8.reduceToNat] at hsmall h253 h254 ⊢
      omega
    rw [if_neg (by omega), if_neg (by omega), if_neg (by omega), hwidth]
    rfl

/-- A count is read exactly, and is no larger than the largest count accepted. -/
theorem readCount_exact {bytes rest : List UInt8} {n : Nat} (h : readCount bytes = .ok (n, rest)) :
    bytes = encodeCount n ++ rest ∧ n ≤ maxCount := by
  obtain ⟨n', mid, hcount, h⟩ := Reader.bind_eq_ok_iff.1 h
  split at h
  next => cases h
  next hmax =>
    obtain ⟨rfl, rfl⟩ := Reader.pure_eq_ok_iff.1 h
    exact ⟨readAnyCount_exact hcount, Nat.not_lt.1 hmax⟩

/-- A counted list is read exactly if its items are. -/
theorem Reader.Exact.list {α : Type} {r : Reader α} {encode : α → List UInt8}
    (hr : Reader.Exact r encode) : Reader.Exact (readList r) (encodeList encode) := by
  intro bytes items rest h
  obtain ⟨n, mid, hcount, h⟩ := Reader.bind_eq_ok_iff.1 h
  obtain ⟨rfl, rfl⟩ := hr.replicate h
  rw [(readCount_exact hcount).1, encodeList, List.append_assoc]

end ShieldedLedger
