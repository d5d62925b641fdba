import Mathlib.Algebra.BigOperators.Group.List.Basic
import Mathlib.Algebra.Ring.Int.Defs
import ShieldedLedger.Money

/-!
# Exact sums

`Amount.total` is the sum of amounts in the integers, where nothing overflows. Adding up with
`Amount.sumInRange` gives this sum whenever no value is out of range and the sum is not
(`Amount.sumInRange_eq_some_iff`): partial sums of amounts in range only grow.
-/

namespace ShieldedLedger
namespace Amount

/-- The sum of values as an integer. -/
def total (values : List Amount) : Int := (values.map Int64.toInt).sum

/-- Nothing adds up to zero. -/
@[simp] theorem total_nil : total [] = 0 := rfl

/-- The total of a list is that of its first value and the rest. -/
@[simp] theorem total_cons (value : Amount) (values : List Amount) :
    total (value :: values) = value.toInt + total values := List.sum_cons

/-- Totals of two lists add up. -/
@[simp] theorem total_append (values values' : List Amount) :
    total (values ++ values') = total values + total values' := by
  unfold total
  rw [List.map_append, List.sum_append]

/-- A total does not depend on the order of the values. -/
theorem total_perm {values values' : List Amount} (h : values.Perm values') :
    total values = total values' := (h.map _).sum_eq

section
variable {values values' : List Amount}

/-- Values in range do not add up to less than nothing. -/
theorem total_nonneg (h : ∀ v ∈ values, v.inRange = true) : 0 ≤ total values := by
  induction values with
  | nil => exact Int.le_refl _
  | cons v rest ih =>
    have hv := (inRange_iff.1 (h v List.mem_cons_self)).1
    have hrest := ih fun w hw => h w (List.mem_cons_of_mem _ hw)
    rw [total_cons]
    omega

/-- To leave out values in range does not make the sum greater. -/
theorem total_le_of_sublist (hsub : values.Sublist values') (h : ∀ v ∈ values', v.inRange = true) :
    total values ≤ total values' := by
  induction hsub with
  | slnil => exact Int.le_refl _
  | cons v _ ih =>
    have hv := (inRange_iff.1 (h v List.mem_cons_self)).1
    have hrest := ih fun w hw => h w (List.mem_cons_of_mem _ hw)
    rw [total_cons]
    omega
  | cons_cons v _ ih =>
    have hrest := ih fun w hw => h w (List.mem_cons_of_mem _ hw)
    rw [total_cons, total_cons]
    omega

end

/-- The most that any amount may be, as an integer. -/
theorem toInt_maxMoney : maxMoney.toInt = 2100000000000000 := rfl

/-- A sum that 64 bits hold is exact. -/
theorem toInt_add_of_fits {a b : Amount} (hlow : -9223372036854775808 ≤ a.toInt + b.toInt)
    (hhigh : a.toInt + b.toInt < 9223372036854775808) : (a + b).toInt = a.toInt + b.toInt := by
  rw [Int64.toInt_add]
  simp only [Int.bmod]
  omega

/-- A sum that is no more than any amount may be is exact. -/
theorem toInt_add_of_le {a b : Amount} (ha : 0 ≤ a.toInt) (hb : 0 ≤ b.toInt)
    (h : a.toInt + b.toInt ≤ 2100000000000000) : (a + b).toInt = a.toInt + b.toInt :=
  toInt_add_of_fits (by omega) (by omega)

/-- A valid amount plus a cent does not overflow. -/
theorem toInt_add_cent {value : Amount} (h : value.inRange = true) :
    (value + cent).toInt = value.toInt + 1000000 := by
  have range := inRange_iff.1 h
  have cents : cent.toInt = 1000000 := rfl
  rw [toInt_add_of_fits (by omega) (by omega), cents]

/-- The sum of amounts in range is in range if it is no more than any amount may be. -/
theorem add_inRange_iff {a b : Amount} (ha : a.inRange = true) (hb : b.inRange = true) :
    (a + b).inRange = true ↔ a.toInt + b.toInt ≤ 2100000000000000 := by
  refine ⟨fun h => ?_, fun h => ?_⟩
  · exact toInt_add_of_inRange hb h ▸ (inRange_iff.1 h).2
  · have exact := toInt_add_of_le (inRange_iff.1 ha).1 (inRange_iff.1 hb).1 h
    have hpos := (inRange_iff.1 ha).1
    have hpos' := (inRange_iff.1 hb).1
    exact inRange_iff.2 ⟨by omega, by omega⟩

/-- Values are added to an amount in range if each of them is in range and the sum is no more than
any amount may be, and then the result is the sum. -/
theorem foldlM_addInRange_eq_some_iff {values : List Amount} {start sum : Amount}
    (hstart : start.inRange = true) :
    values.foldlM addInRange start = some sum ↔
      (∀ v ∈ values, v.inRange = true) ∧ start.toInt + total values ≤ 2100000000000000 ∧
        sum.toInt = start.toInt + total values := by
  induction values generalizing start with
  | nil =>
    have hmax := (inRange_iff.1 hstart).2
    rw [List.foldlM_nil, total_nil, Int.add_zero, eq_comm (a := sum.toInt), Int64.toInt_inj]
    refine ⟨fun h => ⟨fun _ hv => absurd hv List.not_mem_nil, hmax, Option.some.inj h⟩,
      fun h => congrArg some h.2.2⟩
  | cons v rest ih =>
    rw [List.foldlM_cons, List.forall_mem_cons, total_cons]
    cases hadd : start.addInRange v with
    | none =>
      refine ⟨nofun, fun ⟨⟨hv, hrest⟩, hle, _⟩ => ?_⟩
      have nonneg := total_nonneg hrest
      have added : start.addInRange v = some (start + v) := by
        rw [addInRange, hv, (add_inRange_iff hstart hv).2 (by omega)]
        rfl
      exact nomatch hadd.symm.trans added
    | some next =>
      obtain ⟨hv, hnext, exact⟩ := addInRange_eq_some_iff.1 hadd
      refine (ih hnext).trans ?_
      rw [exact, Int.add_assoc]
      exact ⟨fun h => ⟨⟨hv, h.1⟩, h.2⟩, fun h => ⟨h.1.2, h.2⟩⟩

/-- Values add up in range if each of them is in range and their sum is no more than any amount may
be, and then the result is their sum. -/
theorem sumInRange_eq_some_iff {values : List Amount} {sum : Amount} :
    sumInRange values = some sum ↔
      (∀ v ∈ values, v.inRange = true) ∧ total values ≤ 2100000000000000 ∧
        sum.toInt = total values := by
  have zero : (0 : Amount).toInt = 0 := rfl
  rw [sumInRange, foldlM_addInRange_eq_some_iff rfl, zero, Int.zero_add]

/-- Values in range add up to their exact sum, if any amount may be that much. -/
theorem sumInRange_of_le {values : List Amount} (h : ∀ v ∈ values, v.inRange = true)
    (hle : total values ≤ maxMoney.toInt) :
    ∃ sum : Amount, sumInRange values = some sum ∧ sum.inRange = true ∧
      sum.toInt = total values := by
  have nonneg := total_nonneg h
  rw [toInt_maxMoney] at hle
  have exact : (Int64.ofInt (total values)).toInt = total values :=
    Int64.toInt_ofInt_of_le (by omega) (by omega)
  exact ⟨_, sumInRange_eq_some_iff.2 ⟨h, hle, exact⟩, inRange_iff.2 (by omega), exact⟩

/-- Values cannot be added up if the sum is more than any amount may be. -/
theorem sumInRange_of_lt {values : List Amount} (hlt : maxMoney.toInt < total values) :
    sumInRange values = none := by
  refine Option.eq_none_iff_forall_ne_some.2 fun sum hsum => ?_
  exact Int.not_lt.2 (sumInRange_eq_some_iff.1 hsum).2.1 hlt

end Amount
end ShieldedLedger
