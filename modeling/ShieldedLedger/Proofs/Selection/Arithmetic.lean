import ShieldedLedger.Proofs.Selection.Subset
import ShieldedLedger.Random.SplitMix

/-!
# The arithmetic of the search for a subset

The running sum of a round changes where a value is picked: the value is added, and where that
reaches the target it is subtracted again. These calculations are listed value by value
(`Subset.calculationsAt`), and along a pass, a round and the search. The books that
`Subset.InStep` keeps bound every one of them: what is calculated is the sum of some of the values,
so it lies between nothing and the sum of all, and 64 bits hold it
(`Subset.bestSubset_keeps_books`).
-/

namespace ShieldedLedger
namespace Subset

open Amount (total)

/-- A calculation with two amounts. -/
inductive Calculation where
  | add (a b : Amount)
  | sub (a b : Amount)

namespace Calculation

/-- What is calculated, in 64 bits. -/
def result : Calculation → Amount
  | add a b => a + b
  | sub a b => a - b

/-- What would be calculated in the integers. -/
def exact : Calculation → Int
  | add a b => a.toInt + b.toInt
  | sub a b => a.toInt - b.toInt

/-- Nothing overflows, and the result is at least nothing and at most `most`. -/
def Within (most : Int) (c : Calculation) : Prop :=
  c.result.toInt = c.exact ∧ 0 ≤ c.exact ∧ c.exact ≤ most

end Calculation

variable {σ : Type} {values before after : List Amount} {value target : Amount}
  {flags flags' : List Bool} {flag : Bool} {s : Search σ} {pick : Bool → σ → Bool × σ}

/-! ## At one value -/

/-- The calculations at one value: it is added if it is picked, and subtracted again if that reaches
the target. -/
def calculationsAt (pick : Bool → σ → Bool × σ) (target : Amount) (value : Amount) (flag : Bool)
    (s : Search σ) : List Calculation :=
  if (pick flag s.source).1 then
    .add s.sum value :: if s.sum + value ≥ target then [.sub (s.sum + value) value] else []
  else []

/-- The sum after a value is the result of the last calculation there. -/
theorem sum_visit (passed rest : List Bool) :
    (visit pick target passed value flag rest s).2.sum =
      (((calculationsAt pick target value flag s).getLast?).map Calculation.result).getD s.sum := by
  unfold visit calculationsAt
  cases hadd : (pick flag s.source).1 with
  | false => simp [hadd]
  | true =>
    by_cases hreached : s.sum + value ≥ target
    · simp [hadd, hreached, Calculation.result]
    · simp [hadd, hreached, Calculation.result]

/-- What is calculated at one value is the sum of some values, if no value is added twice. -/
theorem InStep.calculationsAt {passed rest : List Bool} (pick : Bool → σ → Bool × σ)
    (h : InStep (before ++ value :: after) target (passed.reverse ++ flag :: rest) s)
    (hbefore : passed.length = before.length)
    (hrange : ∀ v ∈ before ++ value :: after, v.inRange = true)
    (htotal : total (before ++ value :: after) ≤ 2100000000000000)
    (honce : ∀ source, (pick flag source).1 = true → flag = false) :
    ∀ c ∈ calculationsAt pick target value flag s,
      c.Within (total (before ++ value :: after)) := by
  intro c hc
  unfold Subset.calculationsAt at hc
  split at hc
  case isFalse => exact absurd hc List.not_mem_nil
  case isTrue hadd =>
    obtain rfl := honce s.source hadd
    obtain ⟨sum, weighed⟩ := h.toInt_add ((List.length_reverse).trans hbefore) hrange htotal
    have without := h.sum
    have least : 0 ≤ weight (passed.reverse ++ false :: rest) (before ++ value :: after) :=
      weight_nonneg hrange
    have hvalue := Amount.inRange_iff.1
      (hrange value (List.mem_append_right _ List.mem_cons_self))
    have most : weight (passed.reverse ++ true :: rest) (before ++ value :: after) ≤ _ :=
      weight_le_total hrange
    obtain rfl | hc := List.mem_cons.1 hc
    · exact ⟨sum, by simp only [Calculation.exact]; omega, by simp only [Calculation.exact]; omega⟩
    · split at hc
      · obtain rfl := List.mem_singleton.1 hc
        -- What was added is subtracted: the sum is again that of the values picked before.
        have back : (s.sum + value) - value = s.sum := by simp
        refine ⟨?_, ?_, ?_⟩ <;> simp only [Calculation.result, Calculation.exact, back] <;> omega
      · exact absurd hc List.not_mem_nil

/-! ## Along a pass -/

/-- The calculations of a pass. -/
def passCalculations (pick : Bool → σ → Bool × σ) (target : Amount) :
    (passed : List Bool) → List (Amount × Bool) → Search σ → List Calculation
  | _, [], _ => []
  | passed, item :: rest, s =>
    let visited := visit pick target passed item.1 item.2 (rest.map (·.2)) s
    calculationsAt pick target item.1 item.2 s ++
      passCalculations pick target (visited.1 :: passed) rest visited.2

/-- What is calculated in a pass is the sum of some values, if it adds no value twice. -/
theorem InStep.passCalculations : ∀ (items : List (Amount × Bool)) {passed : List Bool}
    {before : List Amount} {s : Search σ}, passed.length = before.length →
    (∀ v ∈ before ++ items.map (·.1), v.inRange = true) →
    total (before ++ items.map (·.1)) ≤ 2100000000000000 →
    (∀ item ∈ items, ∀ source, (pick item.2 source).1 = true → item.2 = false) →
    InStep (before ++ items.map (·.1)) target (passed.reverse ++ items.map (·.2)) s →
    ∀ c ∈ passCalculations pick target passed items s,
      c.Within (total (before ++ items.map (·.1)))
  | [], _, _, _, _, _, _, _, _ => fun _ hc => absurd hc List.not_mem_nil
  | item :: rest, passed, before, s, hbefore, hrange, htotal, honce, h => by
    intro c hc
    obtain hc | hc := List.mem_append.1 hc
    · exact h.calculationsAt pick hbefore hrange htotal (honce item List.mem_cons_self) c hc
    · have visited := h.visit pick hbefore hrange htotal (honce item List.mem_cons_self)
      generalize Subset.visit pick target passed item.1 item.2 (rest.map (·.2)) s = r at visited hc
      -- The value that was visited now lies before the rest, and its flag is the last one passed.
      have shift : before ++ (item :: rest).map (·.1) = (before ++ [item.1]) ++ rest.map (·.1) := by
        simp
      have shift' : passed.reverse ++ r.1 :: rest.map (·.2) =
          (r.1 :: passed).reverse ++ rest.map (·.2) := by simp
      change InStep (before ++ (item :: rest).map (·.1)) target _ r.2 at visited
      rw [shift, shift'] at visited
      rw [shift] at hrange htotal ⊢
      refine InStep.passCalculations rest ?_ hrange htotal
        (fun item hitem => honce item (List.mem_cons_of_mem _ hitem)) visited c hc
      rw [List.length_cons, List.length_append, hbefore]
      rfl

/-! ## Along the search -/

section
variable [RandomSource σ]

/-- The calculations of a round. -/
def roundCalculations (values : List Amount) (target : Amount) (best : Subset) (source : σ) :
    List Calculation :=
  let random := fun (_ : Bool) (source : σ) => RandomSource.bit source
  let items := values.map fun value => (value, false)
  let start : Search σ := ⟨0, false, best, source⟩
  let (flags, s) := pass random target [] items start
  passCalculations random target [] items start ++
    if s.reached then []
    else passCalculations (fun flag source => (!flag, source)) target [] (values.zip flags) s

/-- The calculations of at most `rounds` rounds. -/
def searchCalculations (values : List Amount) (target : Amount) :
    (rounds : Nat) → Subset → σ → List Calculation
  | 0, _, _ => []
  | rounds + 1, best, source =>
    if best.value = target then []
    else
      let (next, rest) := round values target best source
      roundCalculations values target best source ++
        searchCalculations values target rounds next rest

/-- The calculations of a whole search. -/
def calculations (values : List Amount) (sum target : Amount) (rounds : Nat) (source : σ) :
    List Calculation :=
  searchCalculations values target rounds (full values sum) source

end

/-- What is calculated in a pass over all values is the sum of some values. -/
theorem InStep.walkCalculations {items : List (Amount × Bool)} (pick : Bool → σ → Bool × σ)
    (hvalues : items.map (·.1) = values)
    (hrange : ∀ v ∈ values, v.inRange = true) (htotal : total values ≤ 2100000000000000)
    (honce : ∀ item ∈ items, ∀ source, (pick item.2 source).1 = true → item.2 = false)
    (h : InStep values target (items.map (·.2)) s) :
    ∀ c ∈ Subset.passCalculations pick target [] items s, c.Within (total values) := by
  subst hvalues
  have start : InStep ([] ++ items.map (·.1)) target ([].reverse ++ items.map (·.2)) s := h
  exact start.passCalculations items rfl hrange htotal honce

section
variable [RandomSource σ] {best : Subset} {source : σ}
  (hrange : ∀ v ∈ values, v.inRange = true) (htotal : total values ≤ 2100000000000000)
include hrange htotal

/-- What is calculated in a round is the sum of some values. -/
theorem within_round (h : Candidate values target best) :
    ∀ c ∈ roundCalculations values target best source, c.Within (total values) := by
  intro c hc
  have first := InStep.firstPass hrange htotal source h
  unfold roundCalculations at hc
  obtain hc | hc := List.mem_append.1 hc
  · exact (inStep_start h).walkCalculations _ (map_fst_unpicked values) hrange htotal
      (fun item hitem _ _ => not_picked values item hitem) c hc
  · split at hc
    · exact absurd hc List.not_mem_nil
    · exact first.zip.2.walkCalculations _ first.zip.1 hrange htotal
        (fun _ _ _ hadd => by rwa [Bool.not_eq_true'] at hadd) c hc

/-- So is what is calculated in any number of rounds. -/
theorem within_search (rounds : Nat) (h : Candidate values target best) :
    ∀ c ∈ searchCalculations values target rounds best source, c.Within (total values) := by
  induction rounds generalizing best source with
  | zero => exact fun _ hc => absurd hc List.not_mem_nil
  | succ rounds ih =>
    intro c hc
    unfold searchCalculations at hc
    split at hc
    · exact absurd hc List.not_mem_nil
    · obtain hc | hc := List.mem_append.1 hc
      · exact within_round hrange htotal h c hc
      · exact ih (candidate_round hrange htotal h) c hc

end

/-- The search keeps its books. Given values in range whose sum is no more than any amount may be,
the flags it answers are one for each value and pick out values that add up to the sum it answers,
which is no more than all values together and reaches the target if they do. And no calculation on
the way overflows or leaves the range from nothing to the sum of all values. -/
theorem bestSubset_keeps_books {σ : Type} [RandomSource σ] {values : List Amount} {sum : Amount}
    (hrange : ∀ v ∈ values, v.inRange = true) (hsum : sum.toInt = total values)
    (htotal : sum.toInt ≤ maxMoney.toInt) (target : Amount) (rounds : Nat) (source : σ) :
    let best := (bestSubset values sum target rounds source).1
    best.included.length = values.length ∧
      best.value.toInt = weight best.included values ∧
      best.value.toInt ≤ sum.toInt ∧
      (target.toInt ≤ sum.toInt → target.toInt ≤ best.value.toInt) ∧
      ∀ c ∈ calculations values sum target rounds source, c.Within sum.toInt := by
  intro best
  rw [Amount.toInt_maxMoney, hsum] at htotal
  have found := candidate_bestSubset hrange htotal hsum target rounds source
  have most : weight best.included values ≤ total values := weight_le_total hrange
  rw [hsum]
  refine ⟨found.length, found.value, found.value.trans_le most, found.reaches, ?_⟩
  exact within_search hrange htotal rounds (candidate_full hsum target)

/-- The search for 12 among 9, 7 and 3 with the draws from one seed. -/
theorem bestSubset_keeps_books_three :
    let values : List Amount := [9, 7, 3]
    let best := (bestSubset values 19 12 1000 (⟨7⟩ : SplitMix)).1
    (∀ v ∈ values, v.inRange = true) ∧ (19 : Amount).toInt = total values ∧
      (19 : Amount).toInt ≤ maxMoney.toInt ∧
      best.value.toInt = weight best.included values ∧
      (12 : Amount).toInt ≤ best.value.toInt ∧
      ∀ c ∈ calculations values 19 12 1000 (⟨7⟩ : SplitMix), c.Within 19 := by
  intro values best
  have hrange : ∀ v ∈ values, v.inRange = true := List.all_eq_true.1 (by decide)
  have hsum : (19 : Amount).toInt = total values := by decide
  have htotal : (19 : Amount).toInt ≤ maxMoney.toInt := by decide
  obtain ⟨-, sum, -, reaches, within⟩ :=
    bestSubset_keeps_books hrange hsum htotal 12 1000 (⟨7⟩ : SplitMix)
  exact ⟨hrange, hsum, htotal, sum, reaches (by decide), within⟩

end Subset
end ShieldedLedger
