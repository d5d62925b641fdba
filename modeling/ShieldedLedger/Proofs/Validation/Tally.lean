import ShieldedLedger.Proofs.Money
import ShieldedLedger.Validation

/-!
# Running totals

The checks of amounts go through lists and keep a running total: an item may be refused on its own,
and the total must stay in range. Each of them is a `tally` of its items
(`Record.outputsAmountViolation?_eq`, `Record.inputsAmountViolation?_eq`,
`Transaction.crosschainViolation?_eq`), so what is true of a tally is true of all: it finds no
violation exactly if no item is refused and the sum is no more than any amount may be
(`violationOf_tally_eq_none_iff`), and none of its additions overflows (`tally?_eq`).
-/

namespace ShieldedLedger

/-- What a check of amounts adds to its running total. -/
structure Item where
  /-- The amount added. -/
  worth : Amount
  /-- What is wrong with the item alone. -/
  refusal? : Option Violation
  /-- What is wrong if the total leaves the range. -/
  tooLarge : Violation
  /-- What is not refused is worth an amount in range. -/
  inRange_worth : refusal? = none → worth.inRange = true

/-- Adds up items, from the first to the last, up to one that is refused or takes the total out of
range. -/
def tally : (total : Amount) → List Item → Except Violation Amount
  | total, [] => .ok total
  | total, item :: rest =>
    match item.refusal? with
    | some violation => .error violation
    | none =>
      if (total + item.worth).inRange then tally (total + item.worth) rest
      else .error item.tooLarge

/-- The violation a tally ends with. -/
def violationOf : Except Violation Amount → Option Violation
  | .error violation => some violation
  | .ok _ => none

section
variable {start sum : Amount} {items : List Item}

/-- Items are added up in two parts, the second from the total of the first. -/
theorem tally_append (start : Amount) (items items' : List Item) :
    tally start (items ++ items') = tally start items >>= (tally · items') := by
  induction items generalizing start with
  | nil => rfl
  | cons item rest ih =>
    simp only [List.cons_append, tally]
    split
    next => rfl
    next =>
      split
      next => exact ih _
      next => rfl

/-- A tally passes if no item is refused and what the items are worth can be added up. -/
theorem tally_eq_ok_iff : tally start items = .ok sum ↔
    (∀ item ∈ items, item.refusal? = none) ∧
      (items.map Item.worth).foldlM Amount.addInRange start = some sum := by
  induction items generalizing start with
  | nil => simp [tally]
  | cons item rest ih =>
    rw [List.forall_mem_cons, List.map_cons, List.foldlM_cons, tally]
    cases hrefusal : item.refusal? with
    | some violation => simp
    | none =>
      simp only [Amount.addInRange, item.inRange_worth hrefusal, Bool.true_and, true_and]
      cases hsum : (start + item.worth).inRange with
      | true => exact ih
      | false => simp

/-- A tally finds no violation exactly if no item is refused and the sum is no more than any amount
may be. -/
theorem violationOf_tally_eq_none_iff : violationOf (tally 0 items) = none ↔
    (∀ item ∈ items, item.refusal? = none) ∧
      Amount.total (items.map Item.worth) ≤ maxMoney.toInt := by
  have passes : violationOf (tally 0 items) = none ↔ ∃ sum, tally 0 items = .ok sum := by
    cases tally 0 items <;> simp [violationOf]
  simp only [passes, tally_eq_ok_iff]
  refine ⟨fun ⟨sum, accepted, hsum⟩ => ?_, fun ⟨accepted, hle⟩ => ?_⟩
  · exact ⟨accepted, (Amount.sumInRange_eq_some_iff.1 hsum).2.1⟩
  · have worths : ∀ worth ∈ items.map Item.worth, worth.inRange = true :=
      List.forall_mem_map.2 fun item hitem => item.inRange_worth (accepted item hitem)
    obtain ⟨sum, hsum, -⟩ := Amount.sumInRange_of_le worths hle
    exact ⟨sum, accepted, hsum⟩

end

/-! ## Overflow -/

/-- Adds two amounts, if 64 bits hold the sum. -/
def Amount.add? (a b : Amount) : Option Amount :=
  if (a + b).toInt = a.toInt + b.toInt then some (a + b) else none

/-- Amounts in range can be added. -/
theorem Amount.add?_eq {a b : Amount} (ha : a.inRange = true) (hb : b.inRange = true) :
    a.add? b = some (a + b) := by
  rw [inRange_iff] at ha hb
  rw [add?, if_pos (toInt_add_of_fits (by omega) (by omega))]

/-- A tally that gives no answer if one of its additions overflows. -/
def tally? : (total : Amount) → List Item → Option (Except Violation Amount)
  | total, [] => some (.ok total)
  | total, item :: rest =>
    match item.refusal? with
    | some violation => some (.error violation)
    | none => do
      let total ← total.add? item.worth
      if total.inRange then tally? total rest else some (.error item.tooLarge)

/-- No addition of a tally overflows. -/
theorem tally?_eq {start : Amount} (hstart : start.inRange = true) (items : List Item) :
    tally? start items = some (tally start items) := by
  induction items generalizing start with
  | nil => rfl
  | cons item rest ih =>
    rw [tally, tally?]
    cases hrefusal : item.refusal? with
    | some violation => rfl
    | none =>
      simp only [Amount.add?_eq hstart (item.inRange_worth hrefusal), Option.bind_eq_bind,
        Option.bind_some]
      split
      next hsum => exact ih hsum
      next => rfl

/-! ## The checks of amounts -/

namespace Item

/-- The value of a transparent output. -/
def output (value : Amount) : Item where
  worth := value
  refusal? :=
    if value < 0 then some .negativeOutput
    else if value > maxMoney then some .outputTooLarge
    else none
  tooLarge := .outputTotalTooLarge
  inRange_worth h := by
    split_ifs at h with hneg hmax
    exact Bool.and_eq_true_iff.2 ⟨decide_eq_true (Int64.not_lt.1 hneg),
      decide_eq_true (Int64.not_lt.1 hmax)⟩

/-- What a joinsplit takes in, if what it releases goes with it. -/
def vpubs (vpubOld vpubNew : Amount) : Item where
  worth := vpubOld
  refusal? :=
    if vpubOld < 0 then some .negativeVpubOld
    else if vpubNew < 0 then some .negativeVpubNew
    else if vpubOld > maxMoney then some .vpubOldTooLarge
    else if vpubNew > maxMoney then some .vpubNewTooLarge
    else if vpubNew ≠ 0 ∧ vpubOld ≠ 0 then some .bothVpubs
    else none
  tooLarge := .outputTotalTooLarge
  inRange_worth h := by
    split_ifs at h with hneg _ hmax
    exact Bool.and_eq_true_iff.2 ⟨decide_eq_true (Int64.not_lt.1 hneg),
      decide_eq_true (Int64.not_lt.1 hmax)⟩

/-- What a joinsplit releases. -/
def released (value : Amount) : Item where
  worth := value
  refusal? := if value.inRange then none else some .inputTotalTooLarge
  tooLarge := .inputTotalTooLarge
  inRange_worth h := by
    split_ifs at h with hrange
    exact hrange

/-- The amount of a crosschain output of the kind `violation` is reported for. -/
def crosschain (violation : Violation) (value : Amount) : Item where
  worth := value
  refusal? := if value = 0 || !value.inRange then some violation else none
  tooLarge := violation
  inRange_worth h := by
    split_ifs at h with hrange
    simp_all

/-- The value of an output is refused if and only if it is out of range. -/
theorem refusal?_output {value : Amount} :
    (output value).refusal? = none ↔ value.inRange = true := by
  simp [output, ite_eq_iff, Int64.not_lt, Amount.inRange]

/-- What a joinsplit takes in and releases is refused unless both are valid amounts and one is 0. -/
theorem refusal?_vpubs {vpubOld vpubNew : Amount} : (vpubs vpubOld vpubNew).refusal? = none ↔
    vpubOld.inRange = true ∧ vpubNew.inRange = true ∧ (vpubOld = 0 ∨ vpubNew = 0) := by
  simp only [vpubs, ite_eq_iff, reduceCtorEq, and_false, false_or, and_true, Int64.not_lt,
    gt_iff_lt, Amount.inRange, Bool.and_eq_true, decide_eq_true_eq]
  tauto

/-- A released value is refused if and only if it is out of range. -/
theorem refusal?_released {value : Amount} :
    (released value).refusal? = none ↔ value.inRange = true := by
  simp [released]

/-- A value for a sidechain is refused if it is 0 or out of range. -/
theorem refusal?_crosschain {violation : Violation} {value : Amount} :
    (crosschain violation value).refusal? = none ↔ value ≠ 0 ∧ value.inRange = true := by
  simp [crosschain]

end Item

namespace Record

/-- What leaves the transparent pool: the outputs, then what the joinsplits take in. -/
def leaving (r : Record) : List Item :=
  r.outputs.map (fun o => .output o.value) ++
    r.joinSplits.map fun js => .vpubs js.vpubOld js.vpubNew

/-- What the joinsplits release. -/
def releasing (r : Record) : List Item := r.joinSplits.map fun js => .released js.vpubNew

/-- The total of the outputs adds up their values. -/
theorem outputsTotal_eq (total : Amount) (outputs : List TxOut) :
    outputsTotal total outputs = tally total (outputs.map fun o => .output o.value) := by
  induction outputs generalizing total with
  | nil => rfl
  | cons o rest ih =>
    simp only [outputsTotal, List.map_cons, ih]
    generalize rest.map _ = items
    cases hsum : (total + o.value).inRange <;> simp only [tally, Item.output, hsum] <;>
      split_ifs <;> first | rfl | contradiction

/-- The total of the joinsplits adds up what they take in. -/
theorem vpubsTotal_eq (total : Amount) (joinSplits : List JoinSplit) :
    vpubsTotal total joinSplits =
      tally total (joinSplits.map fun js => .vpubs js.vpubOld js.vpubNew) := by
  induction joinSplits generalizing total with
  | nil => rfl
  | cons js rest ih =>
    simp only [vpubsTotal, List.map_cons, ih]
    generalize rest.map _ = items
    cases hsum : (total + js.vpubOld).inRange <;> simp only [tally, Item.vpubs, hsum] <;>
      split_ifs <;> first | rfl | contradiction

/-- What leaves is checked by a tally. -/
theorem outputsAmountViolation?_eq (r : Record) :
    r.outputsAmountViolation? = violationOf (tally 0 r.leaving) := by
  simp only [outputsAmountViolation?, outputsTotal_eq, vpubsTotal_eq, leaving, tally_append]
  cases tally 0 (r.outputs.map fun o => .output o.value) <;> rfl

/-- What is released is added like amounts, and one violation stands for all that can go wrong. -/
theorem tally_released (start : Amount) (joinSplits : List JoinSplit) :
    tally start (joinSplits.map fun js => .released js.vpubNew) =
      ((joinSplits.map (·.vpubNew)).foldlM Amount.addInRange start).elim
        (.error .inputTotalTooLarge) .ok := by
  induction joinSplits generalizing start with
  | nil => rfl
  | cons js rest ih =>
    simp only [List.map_cons, List.foldlM_cons]
    specialize ih (start + js.vpubNew)
    generalize rest.map _ = items at ih ⊢
    simp only [tally, Item.released, Amount.addInRange]
    by_cases hvalue : js.vpubNew.inRange = true <;>
      by_cases hsum : (start + js.vpubNew).inRange = true <;>
      simp only [hvalue, hsum] <;> first | rfl | exact ih

/-- What is released is checked by a tally. -/
theorem inputsAmountViolation?_eq (r : Record) :
    r.inputsAmountViolation? = violationOf (tally 0 r.releasing) := by
  rw [releasing, tally_released, inputsAmountViolation?, Amount.sumInRange]
  cases (r.joinSplits.map (·.vpubNew)).foldlM Amount.addInRange 0 <;> rfl

/-- Adds up what joinsplits release. Each amount is added before it is looked at; there is no answer
if an addition overflows. -/
def releasedTotal? : (total : Amount) → List JoinSplit → Option (Except Violation Amount)
  | total, [] => some (.ok total)
  | total, js :: rest => do
    let total ← total.add? js.vpubNew
    if js.vpubNew.inRange && total.inRange then releasedTotal? total rest
    else some (.error .inputTotalTooLarge)

/-- If what each joinsplit releases is in range, no addition overflows. -/
theorem releasedTotal?_eq {start : Amount} (hstart : start.inRange = true)
    {joinSplits : List JoinSplit} (h : ∀ js ∈ joinSplits, js.vpubNew.inRange = true) :
    releasedTotal? start joinSplits =
      some (tally start (joinSplits.map fun js => .released js.vpubNew)) := by
  induction joinSplits generalizing start with
  | nil => rfl
  | cons js rest ih =>
    obtain ⟨hjs, hrest⟩ := List.forall_mem_cons.1 h
    rw [List.map_cons, tally, Item.refusal?_released.2 hjs]
    simp only [releasedTotal?, Amount.add?_eq hstart hjs, Option.bind_eq_bind, Option.bind_some,
      hjs, Bool.true_and, Item.released]
    split
    next hsum => exact ih hsum hrest
    next => rfl

end Record

namespace Transaction

/-- What leaves for sidechains: creations, then locks, then forward transfers. -/
def crossing (t : Transaction) : List Item :=
  t.body.creations.map (fun o => .crosschain .creationAmount o.value) ++
    t.body.locks.map (fun o => .crosschain .lockAmount o.value) ++
    t.body.forwards.map fun o => .crosschain .forwardAmount o.value

/-- The total of the outputs of one kind for sidechains adds up their values. -/
theorem crosschainTotal_eq (violation : Violation) (total : Amount) (values : List Amount) :
    crosschainTotal violation total values =
      tally total (values.map (.crosschain violation)) := by
  induction values generalizing total with
  | nil => rfl
  | cons value rest ih =>
    have sumFits (hvalue : value.inRange = true) (hsum : (total + value).inRange = true) :
        total.toInt + value.toInt ≤ 9223372036854775807 := by
      have fits := (total + value).toInt_lt
      rw [Amount.toInt_add_of_inRange hvalue hsum] at fits
      omega
    simp only [crosschainTotal, Amount.accumulateCrosschain, List.map_cons, ih]
    generalize rest.map _ = items
    simp only [tally, Item.crosschain]
    by_cases hvalue : value.inRange = true
    · by_cases hsum : (total + value).inRange = true
      · simp only [hvalue, hsum, if_neg (Int.not_lt.2 (sumFits hvalue hsum))]
        split_ifs <;> rfl
      · simp only [hvalue, hsum]
        split_ifs <;> first | rfl | contradiction
    · simp [hvalue]

/-- What leaves for sidechains is checked by a tally. -/
theorem crosschainViolation?_eq (t : Transaction) :
    t.crosschainViolation? = violationOf (tally 0 t.crossing) := by
  simp only [crosschainViolation?, crosschainTotal_eq, crossing, tally_append, bind_assoc,
    List.map_map]
  rfl

end Transaction
end ShieldedLedger
