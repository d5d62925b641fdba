/-!
# Monetary amounts

Amounts are signed 64-bit numbers of the smallest unit, so that malformed (negative) values can be
represented and rejected. An amount is in range when it lies in `[0, maxMoney]`, and sums are
computed by `addInRange`, which fails as soon as a value or a total leaves the range
(`addInRange_eq_some_iff`).
-/

namespace ShieldedLedger

/-- An amount in the smallest unit. -/
abbrev Amount := Int64

/-- One hundredth of a coin; a coin has a hundred million units. -/
def cent : Amount := 1000000

/-- No amount above this is valid. -/
def maxMoney : Amount := 2100000000000000

namespace Amount

/-- True if the amount is neither negative nor above `maxMoney`. -/
def inRange (value : Amount) : Bool := 0 ≤ value && value ≤ maxMoney

/-- Adds `value` to `total`, unless the value or the sum is out of range. -/
def addInRange (total value : Amount) : Option Amount :=
  if value.inRange && (total + value).inRange then some (total + value) else none

/-- Adds up `values`, unless one of them or a partial sum is out of range. -/
def sumInRange (values : List Amount) : Option Amount := values.foldlM addInRange 0

/-- Whole coins, a point, and eight decimals. -/
def format (value : Amount) : String :=
  let units := value.toInt.natAbs
  let decimals := toString (units % 100000000)
  (if value < 0 then "-" else "") ++ toString (units / 100000000) ++ "." ++
    String.ofList (List.replicate (8 - decimals.length) '0') ++ decimals

/-- The range in exact integers. -/
theorem inRange_iff {value : Amount} :
    value.inRange = true ↔ 0 ≤ value.toInt ∧ value.toInt ≤ 2100000000000000 := by
  simp only [inRange, Bool.and_eq_true, decide_eq_true_eq, Int64.le_iff_toInt_le]
  rfl

/-- A sum that is in range is the exact sum. -/
theorem toInt_add_of_inRange {total value : Amount} (hv : value.inRange = true)
    (hs : (total + value).inRange = true) : (total + value).toInt = total.toInt + value.toInt := by
  rw [inRange_iff] at hv hs
  rw [Int64.toInt_add] at *
  have h1 := total.toInt_lt
  have h2 := total.le_toInt
  simp only [Int.bmod] at *
  omega

/-- `addInRange` gives the exact sum, and only when the value and the sum are in range. -/
theorem addInRange_eq_some_iff {total value sum : Amount} :
    addInRange total value = some sum ↔
      value.inRange = true ∧ sum.inRange = true ∧ sum.toInt = total.toInt + value.toInt := by
  unfold addInRange
  constructor
  · intro h
    split at h
    · next hc =>
      obtain ⟨hv, hs⟩ := Bool.and_eq_true_iff.1 hc
      obtain rfl := Option.some.inj h
      exact ⟨hv, hs, toInt_add_of_inRange hv hs⟩
    · simp at h
  · rintro ⟨hv, hs, he⟩
    have : sum = total + value := by
      apply Int64.toInt_inj.1
      rw [Int64.toInt_add, ← he]
      have h1 := sum.toInt_lt
      have h2 := sum.le_toInt
      simp only [Int.bmod]
      omega
    subst this
    simp [hv, hs]

end Amount
end ShieldedLedger
