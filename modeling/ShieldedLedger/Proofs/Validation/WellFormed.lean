import ShieldedLedger.Proofs.Validation.Tally

/-!
# Well-formed transactions

Each of the context-free checks of a transaction is there for one rule (`Check.Holds`), which is
stated without loops, running totals or machine arithmetic, and finds a violation exactly if the
rule is broken (`Check.violation?_eq_none_iff`). A transaction that keeps every rule is well-formed,
and these are the transactions the checks accept (`Transaction.checkWithoutProof_correct`).
-/

namespace ShieldedLedger
namespace Transaction

/-- The checks of a transaction that leave proofs aside. -/
inductive Check
  | version
  | inputs
  | outputs
  | size
  | outputsAmount
  | inputsAmount
  | crosschain
  | duplication
  | interaction
deriving DecidableEq

namespace Check

/-- The checks in the order the chain applies them. -/
def all : List Check :=
  [version, inputs, outputs, size, outputsAmount, inputsAmount, crosschain, duplication,
    interaction]

/-- What the check finds. -/
def violation? (t : Transaction) : Check → Option Violation
  | version => t.versionViolation?
  | inputs => t.inputsViolation?
  | outputs => t.outputsViolation?
  | size => (Record.transaction t).sizeViolation?
  | outputsAmount => (Record.transaction t).outputsAmountViolation?
  | inputsAmount => (Record.transaction t).inputsAmountViolation?
  | crosschain => t.crosschainViolation?
  | duplication => (Record.transaction t).duplicationViolation?
  | interaction => (Record.transaction t).interactionViolation?

/-- The rule the check is there for. Sums are sums of integers. -/
def Holds (t : Transaction) : Check → Prop
  | version => 1 ≤ t.body.version ∨ t.body.version = -3 ∨ t.body.version = -4
  | inputs => t.body.inputs ≠ [] ∨ t.body.joinSplits ≠ []
  | outputs => t.body.outputs ≠ [] ∨ t.body.joinSplits ≠ [] ∨ t.crosschain ≠ []
  | size => t.encode.length ≤ 100000
  | outputsAmount =>
    (∀ o ∈ t.body.outputs, o.value.inRange = true) ∧
      (∀ js ∈ t.body.joinSplits, js.vpubOld.inRange = true ∧ js.vpubNew.inRange = true ∧
        (js.vpubOld = 0 ∨ js.vpubNew = 0)) ∧
      Amount.total (t.body.outputs.map (·.value)) +
        Amount.total (t.body.joinSplits.map (·.vpubOld)) ≤ maxMoney.toInt
  | inputsAmount =>
    (∀ js ∈ t.body.joinSplits, js.vpubNew.inRange = true) ∧
      Amount.total (t.body.joinSplits.map (·.vpubNew)) ≤ maxMoney.toInt
  | crosschain =>
    (∀ o ∈ t.crosschain, 0 < o.value ∧ o.value ≤ maxMoney) ∧
      Amount.total (t.crosschain.map CrosschainOut.value) ≤ maxMoney.toInt
  | duplication =>
    (t.body.inputs.map (·.prevout)).Nodup ∧
      (t.body.joinSplits.flatMap JoinSplit.nullifierList).Nodup
  | interaction =>
    if t.isCoinbase then
      t.body.joinSplits = [] ∧ ∀ i ∈ t.body.inputs, 2 ≤ i.script.size ∧ i.script.size ≤ 100
    else ∀ i ∈ t.body.inputs, i.prevout ≠ OutPoint.null

/-- The check is the first in order whose rule is broken. -/
def FirstBroken (t : Transaction) (check : Check) : Prop :=
  ¬ check.Holds t ∧
    ∃ before after, all = before ++ check :: after ∧ ∀ earlier ∈ before, earlier.Holds t

end Check

/-- Every rule is kept. -/
def WellFormed (t : Transaction) : Prop := ∀ check : Check, check.Holds t

variable {t : Transaction}

/-! ## The checks one by one -/

/-- A test for one violation finds nothing exactly if the violation is not there. -/
theorem finding_eq_none_iff {broken : Prop} [Decidable broken] {violation : Violation} :
    (if broken then some violation else none) = none ↔ ¬ broken := by
  simp

/-- The check of the version finds nothing if and only if the version is one that is allowed. -/
theorem versionViolation?_eq_none_iff :
    t.versionViolation? = none ↔ Check.version.Holds t := by
  have order : ¬ t.body.version < Version.transparent ↔ 1 ≤ t.body.version := Int32.not_lt
  rw [versionViolation?, finding_eq_none_iff, not_and_or, order, not_and_or, not_not, not_not]
  rfl

/-- A transaction has no outputs for sidechains if and only if it is said to have none. -/
theorem crosschain_eq_nil_iff : t.crosschain = [] ↔ t.hasNoCrosschain = true := by
  simp [crosschain, hasNoCrosschain, and_assoc]

/-- The check of the inputs finds nothing if and only if there are any, or joinsplits. -/
theorem inputsViolation?_eq_none_iff : t.inputsViolation? = none ↔ Check.inputs.Holds t := by
  rw [inputsViolation?, finding_eq_none_iff, List.isEmpty_iff, List.isEmpty_iff, not_and_or]
  rfl

/-- The check of the outputs finds nothing if and only if there are any, or joinsplits, or outputs
for sidechains. -/
theorem outputsViolation?_eq_none_iff : t.outputsViolation? = none ↔ Check.outputs.Holds t := by
  rw [outputsViolation?, finding_eq_none_iff, List.isEmpty_iff, List.isEmpty_iff,
    ← crosschain_eq_nil_iff, not_and_or, not_and_or]
  rfl

/-- The check of the size finds nothing if and only if the encoding is no longer than is allowed. -/
theorem sizeViolation?_eq_none_iff :
    (Record.transaction t).sizeViolation? = none ↔ Check.size.Holds t := by
  rw [Record.sizeViolation?, finding_eq_none_iff]
  exact Nat.not_lt

/-- The check of what leaves the transparent pool finds nothing if and only if its values and their
sum are right. -/
theorem outputsAmountViolation?_eq_none_iff :
    (Record.transaction t).outputsAmountViolation? = none ↔ Check.outputsAmount.Holds t := by
  rw [Record.outputsAmountViolation?_eq, violationOf_tally_eq_none_iff]
  simp only [Record.leaving, Record.outputs, Record.joinSplits, List.forall_mem_append,
    List.forall_mem_map, Item.refusal?_output, Item.refusal?_vpubs, List.map_append, List.map_map,
    Amount.total_append, Check.Holds, and_assoc]
  rfl

/-- The check of what the joinsplits release finds nothing if and only if the values and their sum
are right. -/
theorem inputsAmountViolation?_eq_none_iff :
    (Record.transaction t).inputsAmountViolation? = none ↔ Check.inputsAmount.Holds t := by
  rw [Record.inputsAmountViolation?_eq, violationOf_tally_eq_none_iff]
  simp only [Record.releasing, Record.joinSplits, List.forall_mem_map, Item.refusal?_released,
    List.map_map, Check.Holds]
  rfl

/-- The check of what leaves for sidechains finds nothing if and only if the values, of which none
is 0, and their sum are right. -/
theorem crosschainViolation?_eq_none_iff :
    t.crosschainViolation? = none ↔ Check.crosschain.Holds t := by
  have positive {value : Amount} :
      value ≠ 0 ∧ value.inRange = true ↔ 0 < value ∧ value ≤ maxMoney := by
    simp only [Amount.inRange, Bool.and_eq_true, decide_eq_true_eq, ← and_assoc]
    refine and_congr_left fun _ => ?_
    rw [Int64.lt_iff_le_and_ne]
    tauto
  rw [crosschainViolation?_eq, violationOf_tally_eq_none_iff]
  simp only [crossing, Transaction.crosschain, List.forall_mem_append, List.forall_mem_map,
    Item.refusal?_crosschain, List.map_append, List.map_map, Check.Holds, positive]
  rfl

/-- The check of repetitions finds nothing if and only if no outpoint and no nullifier occurs twice.
-/
theorem duplicationViolation?_eq_none_iff :
    (Record.transaction t).duplicationViolation? = none ↔ Check.duplication.Holds t := by
  simp only [Record.duplicationViolation?, ite_eq_iff, reduceCtorEq, and_false, and_true, false_or,
    not_not]
  rfl

/-- A coinbase has one input, which spends nothing. -/
theorem isCoinbase_iff :
    t.isCoinbase = true ↔ ∃ i, t.body.inputs = [i] ∧ i.prevout = OutPoint.null := by
  unfold isCoinbase
  split
  next i hinputs => simp [hinputs, OutPoint.isNull_iff]
  next hinputs => simpa using fun i h => absurd h (hinputs i)

/-- The check of how the parts go together finds nothing if and only if a coinbase has no joinsplits
and a script of the right size, and other transactions spend real outpoints. -/
theorem interactionViolation?_eq_none_iff :
    (Record.transaction t).interactionViolation? = none ↔ Check.interaction.Holds t := by
  have coinbase : (Record.transaction t).isCoinbase = t.isCoinbase := rfl
  simp only [Record.interactionViolation?, coinbase, Check.Holds]
  simp only [Record.inputs, Record.joinSplits]
  by_cases hcoinbase : t.isCoinbase = true
  · obtain ⟨i, hinputs, -⟩ := isCoinbase_iff.1 hcoinbase
    have script : ¬ (i.script.size < 2 ∨ 100 < i.script.size) ↔
        2 ≤ i.script.size ∧ i.script.size ≤ 100 := by omega
    simp only [hcoinbase, hinputs, if_true, List.map_cons, List.headD_cons,
      List.forall_mem_singleton, ite_eq_iff, reduceCtorEq, and_false, and_true, false_or, not_not,
      List.isEmpty_iff, script]
  · simp [hcoinbase, OutPoint.isNull_iff]

/-- A check finds a violation exactly if its rule is broken. -/
theorem Check.violation?_eq_none_iff {check : Check} :
    check.violation? t = none ↔ check.Holds t := by
  cases check
  case version => exact versionViolation?_eq_none_iff
  case inputs => exact inputsViolation?_eq_none_iff
  case outputs => exact outputsViolation?_eq_none_iff
  case size => exact sizeViolation?_eq_none_iff
  case outputsAmount => exact outputsAmountViolation?_eq_none_iff
  case inputsAmount => exact inputsAmountViolation?_eq_none_iff
  case crosschain => exact crosschainViolation?_eq_none_iff
  case duplication => exact duplicationViolation?_eq_none_iff
  case interaction => exact interactionViolation?_eq_none_iff

/-! ## The checks in order -/

/-- The violation is that of the first check that finds one. -/
theorem violation?_eq_findSome? (t : Transaction) :
    t.violation? = Check.all.findSome? (·.violation? t) := rfl

/-- The well-formed transactions are those without a violation. -/
theorem violation?_eq_none_iff : t.violation? = none ↔ t.WellFormed := by
  rw [violation?_eq_findSome?, List.findSome?_eq_none_iff]
  refine ⟨fun h check => Check.violation?_eq_none_iff.1 (h check (by cases check <;> decide)),
    fun h check _ => Check.violation?_eq_none_iff.2 (h check)⟩

/-- The violation of a transaction is found by the first check whose rule is broken. -/
theorem exists_firstBroken_of_violation {violation : Violation}
    (h : t.violation? = some violation) :
    ∃ check : Check, check.FirstBroken t ∧ check.violation? t = some violation := by
  rw [violation?_eq_findSome?, List.findSome?_eq_some_iff] at h
  obtain ⟨before, check, after, hall, hfound, hbefore⟩ := h
  refine ⟨check, ⟨fun holds => ?_, before, after, hall, fun earlier hearlier => ?_⟩, hfound⟩
  · exact nomatch hfound.symm.trans (Check.violation?_eq_none_iff.2 holds)
  · exact Check.violation?_eq_none_iff.1 (hbefore earlier hearlier)

/-! ## Overflow -/

/-- What the check finds, or nothing at all if one of its additions overflows. -/
def Check.trapping? (t : Transaction) : Check → Option (Option Violation)
  | outputsAmount => (tally? 0 (Record.transaction t).leaving).map violationOf
  | inputsAmount => (Record.releasedTotal? 0 t.body.joinSplits).map violationOf
  | crosschain => (tally? 0 t.crossing).map violationOf
  | check => some (check.violation? t)

/-- What the first of some checks that finds a violation finds. The checks after it are not run, and
there is no answer if an addition of a check that is run overflows. -/
def firstTrapping? (t : Transaction) : List Check → Option (Option Violation)
  | [] => some none
  | check :: rest =>
    match check.trapping? t with
    | some none => t.firstTrapping? rest
    | outcome => outcome

/-- No addition of a check overflows, if what the joinsplits release is known to be in range before
it is added up. -/
theorem Check.trapping?_eq (check : Check)
    (h : check = inputsAmount → ∀ js ∈ t.body.joinSplits, js.vpubNew.inRange = true) :
    check.trapping? t = some (check.violation? t) := by
  cases check
  case outputsAmount =>
    rw [trapping?, tally?_eq rfl, violation?, Record.outputsAmountViolation?_eq]
    rfl
  case inputsAmount =>
    rw [trapping?, Record.releasedTotal?_eq rfl (h rfl), violation?,
      Record.inputsAmountViolation?_eq]
    rfl
  case crosschain =>
    rw [trapping?, tally?_eq rfl, violation?, crosschainViolation?_eq]
    rfl
  all_goals rfl

/-- If no check traps, the first one that finds anything decides. -/
theorem firstTrapping?_eq {checks : List Check}
    (h : ∀ check ∈ checks, check.trapping? t = some (check.violation? t)) :
    t.firstTrapping? checks = some (checks.findSome? (·.violation? t)) := by
  induction checks with
  | nil => rfl
  | cons check rest ih =>
    obtain ⟨hcheck, hrest⟩ := List.forall_mem_cons.1 h
    rw [firstTrapping?, List.findSome?_cons, hcheck]
    cases check.violation? t with
    | none => exact ih hrest
    | some violation => rfl

/-- Checks after one that finds a violation are not run. -/
theorem firstTrapping?_append {checks : List Check} {violation : Violation}
    (h : t.firstTrapping? checks = some (some violation)) (rest : List Check) :
    t.firstTrapping? (checks ++ rest) = some (some violation) := by
  induction checks with
  | nil => exact nomatch h
  | cons check checks ih =>
    rw [firstTrapping?] at h
    rw [List.cons_append, firstTrapping?]
    split
    next hnone =>
      rw [hnone] at h
      exact ih h
    next hsome =>
      split at h
      next hnone => exact absurd hnone hsome
      next => exact h

/-- No addition overflows while a transaction is checked: what the joinsplits release is added up
only after each of it was found in range. -/
theorem firstTrapping?_all (t : Transaction) : t.firstTrapping? Check.all = some t.violation? := by
  let front := [Check.version, .inputs, .outputs, .size, .outputsAmount]
  let back := [Check.inputsAmount, .crosschain, .duplication, .interaction]
  have traps : t.firstTrapping? front = some (front.findSome? (·.violation? t)) :=
    firstTrapping?_eq fun check hcheck => check.trapping?_eq fun h => by
      subst h
      exact absurd hcheck (by decide)
  cases hfound : front.findSome? (·.violation? t) with
  | some violation =>
    rw [hfound] at traps
    have found : t.violation? = some violation := by
      rw [violation?_eq_findSome?, show Check.all = front ++ back from rfl, List.findSome?_append,
        hfound, Option.some_or]
    exact found ▸ firstTrapping?_append traps back
  | none =>
    have amounts : Check.outputsAmount.Holds t := Check.violation?_eq_none_iff.1 <|
      List.findSome?_eq_none_iff.1 hfound _ (by decide)
    exact firstTrapping?_eq fun check _ =>
      check.trapping?_eq fun _ js hjs => (amounts.2.1 js hjs).2.1

/-! ## What is accepted -/

/-- Whatever the sink, the checks pass exactly if the transaction is well-formed. -/
theorem accepted_iff {σ : Type} [RejectionSink σ] {sink : σ} :
    (t.checkWithoutProof sink).1 = true ↔ t.WellFormed := by
  rw [← violation?_eq_none_iff, checkWithoutProof]
  cases t.violation? <;> simp [report]

/-- The checks accept exactly the well-formed transactions. The sink of an accepted one is left as
it was; the sink of any other takes note of one rejection, the one of the first check whose rule is
broken. No addition overflows on the way. -/
theorem checkWithoutProof_correct {σ : Type} [RejectionSink σ] (t : Transaction) (sink : σ) :
    ((t.checkWithoutProof sink).1 = true ↔ t.WellFormed) ∧
      (t.WellFormed → t.checkWithoutProof sink = (true, sink)) ∧
      (¬ t.WellFormed → ∃ (check : Check) (violation : Violation),
        check.FirstBroken t ∧ check.violation? t = some violation ∧
        t.checkWithoutProof sink = (false,
          RejectionSink.reject sink violation.score .invalid violation.reason)) ∧
      t.firstTrapping? Check.all = some t.violation? := by
  refine ⟨accepted_iff, fun wellFormed => ?_, fun broken => ?_, firstTrapping?_all t⟩
  · rw [checkWithoutProof, violation?_eq_none_iff.2 wellFormed]
    rfl
  · obtain ⟨violation, h⟩ := Option.ne_none_iff_exists'.1 (mt violation?_eq_none_iff.1 broken)
    obtain ⟨check, hfirst, hfound⟩ := exists_firstBroken_of_violation h
    exact ⟨check, violation, hfirst, hfound, by rw [checkWithoutProof, h]; rfl⟩

end Transaction
end ShieldedLedger
