import ShieldedLedger.Proofs.Money
import ShieldedLedger.Wallet.Selection.Subset

/-!
# The search for a subset keeps its books

A round of the search goes over the values with a running sum and a flag for each value. At each
value the sum is that of the values whose flags are set (`Subset.InStep`), so a candidate, which is
recorded when the sum reaches the target, has the sum it is recorded with, and its sum reaches the
target. All values together are the first candidate. So whatever is drawn, the answer is a subset
with its sum, and it reaches the target if all values together do (`Subset.candidate_bestSubset`).
-/

namespace ShieldedLedger
namespace Subset

open Amount (total)

/-! ## What is chosen -/

/-- The items whose flags are set. -/
def chosen {α : Type} (flags : List Bool) (items : List α) : List α :=
  ((items.zip flags).filter (·.2)).map (·.1)

/-- Choosing from changed items is choosing first and changing the chosen ones. -/
theorem chosen_map {α β : Type} (f : α → β) (flags : List Bool) (items : List α) :
    chosen flags (items.map f) = (chosen flags items).map f := by
  unfold chosen
  rw [List.zip_map_left, List.filter_map, List.map_map, List.map_map]
  rfl

/-- What is chosen is in the order of the items. -/
theorem chosen_sublist {α : Type} (flags : List Bool) (items : List α) :
    (chosen flags items).Sublist items := by
  induction items generalizing flags with
  | nil => exact .slnil
  | cons item items ih =>
    cases flags with
    | nil => exact List.nil_sublist _
    | cons flag flags =>
      cases flag with
      | false => exact (ih flags).cons _
      | true => exact (ih flags).cons_cons _

/-- All items are chosen by flags that are all set. -/
theorem chosen_of_all {α : Type} (items : List α) :
    chosen (items.map fun _ => true) items = items := by
  induction items with
  | nil => rfl
  | cons item items ih => exact congrArg (item :: ·) ih

/-- The sum of the values whose flags are set. -/
def weight (flags : List Bool) (values : List Amount) : Int := total (chosen flags values)

/-- The first value counts if its flag is set. -/
theorem weight_cons (flag : Bool) (flags : List Bool) (value : Amount) (values : List Amount) :
    weight (flag :: flags) (value :: values) =
      (if flag then value.toInt else 0) + weight flags values := by
  cases flag with
  | false => exact (Int.zero_add _).symm
  | true => exact Amount.total_cons _ _

/-- Two lists of values weigh together what they weigh each. -/
theorem weight_append {flags flags' : List Bool} {values values' : List Amount}
    (h : flags.length = values.length) :
    weight (flags ++ flags') (values ++ values') = weight flags values + weight flags' values' := by
  unfold weight chosen
  rw [List.zip_append h.symm, List.filter_append, List.map_append, Amount.total_append]

/-- Of valid amounts, what is chosen weighs no more than all. -/
theorem weight_le_total {flags : List Bool} {values : List Amount}
    (h : ∀ v ∈ values, v.inRange = true) : weight flags values ≤ total values :=
  Amount.total_le_of_sublist (chosen_sublist flags values) h

/-- Of valid amounts, what is chosen does not weigh less than nothing. -/
theorem weight_nonneg {flags : List Bool} {values : List Amount}
    (h : ∀ v ∈ values, v.inRange = true) : 0 ≤ weight flags values :=
  Amount.total_nonneg fun v hv => h v ((chosen_sublist flags values).subset hv)

/-- Nothing is chosen by flags of which none is set. -/
theorem weight_of_none (values : List Amount) : weight (values.map fun _ => false) values = 0 := by
  induction values with
  | nil => rfl
  | cons value values ih => exact ih

/-! ## One round -/

/-- A subset of the values with its sum, which reaches the target if all values together do. -/
structure Candidate (values : List Amount) (target : Amount) (s : Subset) : Prop where
  length : s.included.length = values.length
  value : s.value.toInt = weight s.included values
  reaches : target.toInt ≤ total values → target.toInt ≤ s.value.toInt

variable {σ : Type} {values before after : List Amount} {value target : Amount}
  {flags flags' : List Bool} {flag : Bool} {s : Search σ} {pick : Bool → σ → Bool × σ}

/-- The sum is that of the values whose flags are set, and the best subset is a candidate. -/
structure InStep (values : List Amount) (target : Amount) (flags : List Bool) (s : Search σ) :
    Prop where
  length : flags.length = values.length
  sum : s.sum.toInt = weight flags values
  best : Candidate values target s.best

/-- What happens at one value, between values with the flags `passed` (last first) and `rest`. -/
def visit (pick : Bool → σ → Bool × σ) (target : Amount) (passed : List Bool) (value : Amount)
    (flag : Bool) (rest : List Bool) (s : Search σ) : Bool × Search σ :=
  let (add, source) := pick flag s.source
  let sum := s.sum + value
  if !add then (flag, { s with source })
  else if sum ≥ target then
    (false, { s with
      reached := true
      source
      best := if sum < s.best.value then ⟨passed.reverse ++ true :: rest, sum⟩ else s.best })
  else (true, { s with sum, source })

/-- A pass visits the first value and then passes over the rest. -/
theorem pass_cons (passed : List Bool) (item : Amount × Bool) (rest : List (Amount × Bool))
    (s : Search σ) : pass pick target passed (item :: rest) s =
      let visited := visit pick target passed item.1 item.2 (rest.map (·.2)) s
      let walked := pass pick target (visited.1 :: passed) rest visited.2
      (visited.1 :: walked.1, walked.2) := rfl

/-- To add a value whose flag is not set gives the sum with it. It is no more than the sum of all
values, so nothing overflows. -/
theorem InStep.toInt_add (h : InStep (before ++ value :: after) target (flags ++ false :: flags') s)
    (hbefore : flags.length = before.length)
    (hrange : ∀ v ∈ before ++ value :: after, v.inRange = true)
    (htotal : total (before ++ value :: after) ≤ 2100000000000000) :
    (s.sum + value).toInt = s.sum.toInt + value.toInt ∧
      (s.sum + value).toInt = weight (flags ++ true :: flags') (before ++ value :: after) := by
  have without := h.sum
  have added : weight (flags ++ true :: flags') (before ++ value :: after) =
      s.sum.toInt + value.toInt := by
    rw [without, weight_append hbefore, weight_append hbefore, weight_cons, weight_cons]
    simp only [Bool.false_eq_true, if_false, if_true]
    omega
  have most : weight (flags ++ true :: flags') (before ++ value :: after) ≤ _ :=
    weight_le_total hrange
  have least : 0 ≤ weight (flags ++ false :: flags') (before ++ value :: after) :=
    weight_nonneg hrange
  have hvalue := hrange value (List.mem_append_right _ List.mem_cons_self)
  have exact : (s.sum + value).toInt = s.sum.toInt + value.toInt :=
    Amount.toInt_add_of_le (by omega) (Amount.inRange_iff.1 hvalue).1 (by omega)
  exact ⟨exact, exact.trans added.symm⟩

/-- What happens at one value keeps the books, if no value is added twice. -/
theorem InStep.visit {passed rest : List Bool} (pick : Bool → σ → Bool × σ)
    (h : InStep (before ++ value :: after) target (passed.reverse ++ flag :: rest) s)
    (hbefore : passed.length = before.length)
    (hrange : ∀ v ∈ before ++ value :: after, v.inRange = true)
    (htotal : total (before ++ value :: after) ≤ 2100000000000000)
    (honce : ∀ source, (pick flag source).1 = true → flag = false) :
    InStep (before ++ value :: after) target
      (passed.reverse ++ (visit pick target passed value flag rest s).1 :: rest)
      (visit pick target passed value flag rest s).2 := by
  unfold Subset.visit
  dsimp only
  cases hadd : (pick flag s.source).1 with
  | false => exact ⟨h.length, h.sum, h.best⟩
  | true =>
    obtain rfl := honce s.source hadd
    have hlength : (passed.reverse ++ true :: rest).length = (before ++ value :: after).length := by
      have := h.length
      simp only [List.length_append, List.length_cons] at this ⊢
      omega
    obtain ⟨-, sum⟩ := h.toInt_add ((List.length_reverse).trans hbefore) hrange htotal
    rw [Bool.not_true, if_neg Bool.false_ne_true]
    split
    · next hreached =>
      refine ⟨h.length, h.sum, ?_⟩
      dsimp only
      split
      · exact ⟨hlength, sum, fun _ => Int64.le_iff_toInt_le.1 hreached⟩
      · exact h.best
    · exact ⟨hlength, sum, h.best⟩

/-- A pass keeps the books, if it adds no value twice. -/
theorem InStep.pass : ∀ (items : List (Amount × Bool)) {passed : List Bool}
    {before : List Amount} {s : Search σ}, passed.length = before.length →
    (∀ v ∈ before ++ items.map (·.1), v.inRange = true) →
    total (before ++ items.map (·.1)) ≤ 2100000000000000 →
    (∀ item ∈ items, ∀ source, (pick item.2 source).1 = true → item.2 = false) →
    InStep (before ++ items.map (·.1)) target (passed.reverse ++ items.map (·.2)) s →
    InStep (before ++ items.map (·.1)) target
      (passed.reverse ++ (pass pick target passed items s).1) (pass pick target passed items s).2
  | [], _, _, _, _, _, _, _, h => h
  | item :: rest, passed, before, s, hbefore, hrange, htotal, honce, h => by
    rw [pass_cons]
    have visited := h.visit pick hbefore hrange htotal (honce item List.mem_cons_self)
    generalize Subset.visit pick target passed item.1 item.2 (rest.map (·.2)) s = r at visited
    -- The value that was visited now lies before the rest, and its flag is the last one passed.
    have shift : before ++ (item :: rest).map (·.1) = (before ++ [item.1]) ++ rest.map (·.1) := by
      simp
    have shift' : ∀ flags : List Bool, passed.reverse ++ r.1 :: flags =
        (r.1 :: passed).reverse ++ flags := fun flags => by simp
    change InStep (before ++ (item :: rest).map (·.1)) target _ r.2 at visited
    rw [shift'] at visited
    rw [shift] at hrange htotal visited ⊢
    dsimp only
    rw [shift']
    refine InStep.pass rest ?_ hrange htotal
      (fun item hitem => honce item (List.mem_cons_of_mem _ hitem)) visited
    rw [List.length_cons, List.length_append, hbefore]
    rfl

/-- So does a pass over all values. -/
theorem InStep.walk {items : List (Amount × Bool)} (pick : Bool → σ → Bool × σ)
    (hvalues : items.map (·.1) = values)
    (hrange : ∀ v ∈ values, v.inRange = true) (htotal : total values ≤ 2100000000000000)
    (honce : ∀ item ∈ items, ∀ source, (pick item.2 source).1 = true → item.2 = false)
    (h : InStep values target (items.map (·.2)) s) :
    InStep values target (Subset.pass pick target [] items s).1
      (Subset.pass pick target [] items s).2 := by
  subst hvalues
  have walked : InStep ([] ++ items.map (·.1)) target ([].reverse ++ items.map (·.2)) s := h
  exact walked.pass items rfl hrange htotal honce

/-! ## The search -/

/-- The first pass of a round goes over all values, … -/
theorem map_fst_unpicked (values : List Amount) :
    (values.map fun value => (value, false)).map (·.1) = values := by
  rw [List.map_map]
  exact List.map_id _

/-- … of which none is picked before, … -/
theorem not_picked (values : List Amount) :
    ∀ item ∈ values.map fun value => (value, false), item.2 = false := by
  intro item hitem
  obtain ⟨_, -, rfl⟩ := List.mem_map.1 hitem
  rfl

/-- … and starts with the sum of nothing. -/
theorem inStep_start {best : Subset} {source : σ} (h : Candidate values target best) :
    InStep values target ((values.map fun value => (value, false)).map (·.2))
      (⟨0, false, best, source⟩ : Search σ) := by
  rw [List.map_map]
  exact ⟨List.length_map _, (weight_of_none values).symm, h⟩

/-- The second pass goes over all values with their flags. -/
theorem InStep.zip (h : InStep values target flags s) :
    (values.zip flags).map (·.1) = values ∧
      InStep values target ((values.zip flags).map (·.2)) s := by
  refine ⟨List.map_fst_zip (Nat.le_of_eq h.length.symm), ?_⟩
  rwa [List.map_snd_zip (Nat.le_of_eq h.length)]

/-- So the second pass, which goes on with the sum of the first, keeps the books. -/
theorem InStep.secondPass (hrange : ∀ v ∈ values, v.inRange = true)
    (htotal : total values ≤ 2100000000000000) (h : InStep values target flags s) :
    let walked := Subset.pass (fun flag source => (!flag, source)) target [] (values.zip flags) s
    InStep values target walked.1 walked.2 :=
  h.zip.2.walk (fun flag source => (!flag, source)) h.zip.1 hrange htotal
    fun _ _ _ hadd => by rwa [Bool.not_eq_true'] at hadd

/-- All values together are a candidate. -/
theorem candidate_full {sum : Amount} (hsum : sum.toInt = total values) (target : Amount) :
    Candidate values target (full values sum) := by
  refine ⟨List.length_map _, ?_, fun h => h.trans_eq hsum.symm⟩
  rw [weight, full, chosen_of_all]
  exact hsum

section
variable [RandomSource σ] {best : Subset} {source : σ}
  (hrange : ∀ v ∈ values, v.inRange = true) (htotal : total values ≤ 2100000000000000)
include hrange htotal

/-- The first pass of a round keeps the books, whatever it picks. -/
theorem InStep.firstPass (source : σ) (h : Candidate values target best) :
    let walked := Subset.pass (fun _ source => RandomSource.bit source) target []
      (values.map fun value => (value, false)) (⟨0, false, best, source⟩ : Search σ)
    InStep values target walked.1 walked.2 :=
  (inStep_start h).walk (fun _ source => RandomSource.bit source) (map_fst_unpicked values)
    hrange htotal fun item hitem _ _ => not_picked values item hitem

/-- A round answers a candidate if it is given one. -/
theorem candidate_round (h : Candidate values target best) :
    Candidate values target (round values target best source).1 := by
  have first := InStep.firstPass hrange htotal source h
  unfold round
  generalize Subset.pass (fun _ source => RandomSource.bit source) target []
    (values.map fun value => (value, false)) ⟨0, false, best, source⟩ = walked at first ⊢
  obtain ⟨flags, s⟩ := walked
  dsimp only at first ⊢
  split
  · exact first.best
  · exact (InStep.secondPass hrange htotal first).best

/-- So does any number of rounds. -/
theorem candidate_search (rounds : Nat) (h : Candidate values target best) :
    Candidate values target (search values target rounds best source).1 := by
  induction rounds generalizing best source with
  | zero => exact h
  | succ rounds ih =>
    unfold search
    split
    · exact h
    · exact ih (candidate_round hrange htotal h)

/-- Whatever is drawn, the answer of the search is a subset with its sum, and reaches the target if
all values together do. -/
theorem candidate_bestSubset {sum : Amount} (hsum : sum.toInt = total values) (target : Amount)
    (rounds : Nat) (source : σ) :
    Candidate values target (bestSubset values sum target rounds source).1 :=
  candidate_search hrange htotal rounds (candidate_full hsum target)

end
end Subset
end ShieldedLedger
