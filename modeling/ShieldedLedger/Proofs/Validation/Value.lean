import ShieldedLedger.Proofs.Validation.WellFormed

/-!
# Values of accepted transactions

The checks bound two totals apart from each other: what leaves with outputs and joinsplits, and what
leaves for sidechains. `Transaction.valueOut` adds them up. So an accepted transaction has a value
exactly if both together are no more than any amount may be, and the value is the exact sum
(`Transaction.values_of_accepted`).
-/

namespace ShieldedLedger
namespace Transaction

/-- The integer sum of what leaves the transparent pool. -/
def totalOut (t : Transaction) : Int :=
  Amount.total (t.body.outputs.map (·.value)) +
    Amount.total (t.body.joinSplits.map (·.vpubOld)) +
    Amount.total (t.crosschain.map CrosschainOut.value)

variable {t : Transaction}

/-- To add amounts one by one and to name the quantity at each step is to name it at the end. -/
theorem foldlM_inRangeOr (quantity : String) (values : List Amount) (start : Amount) :
    values.foldlM (fun total value => inRangeOr quantity (total.addInRange value)) start =
      inRangeOr quantity (values.foldlM Amount.addInRange start) := by
  induction values generalizing start with
  | nil => rfl
  | cons value rest ih =>
    rw [List.foldlM_cons, List.foldlM_cons]
    cases start.addInRange value with
    | none => rfl
    | some next => exact ih next

/-- To name the quantity at two steps is to name it at the second. -/
theorem inRangeOr_bind (quantity : String) (total : Option Amount) (next : Amount → Option Amount) :
    (inRangeOr quantity total >>= fun total => inRangeOr quantity (next total)) =
      inRangeOr quantity (total >>= next) := by
  cases total <;> rfl

/-- Of the joinsplits the value reads what they take in. -/
theorem foldlM_vpubOld (joinSplits : List JoinSplit) (start : Amount) :
    joinSplits.foldlM
        (fun total js => inRangeOr "value_out" (total.addInRange js.vpubOld)) start =
      inRangeOr "value_out" ((joinSplits.map (·.vpubOld)).foldlM Amount.addInRange start) := by
  rw [← foldlM_inRangeOr, List.foldlM_map]

/-- If the crosschain outputs of each kind have a total, the value is that of a list of amounts
with these totals at its end. -/
theorem valueOut_eq {creations locks forwards : Amount}
    (hcreations : Amount.sumInRange (t.body.creations.map (·.value)) = some creations)
    (hlocks : Amount.sumInRange (t.body.locks.map (·.value)) = some locks)
    (hforwards : Amount.sumInRange (t.body.forwards.map (·.value)) = some forwards) :
    t.valueOut = inRangeOr "value_out" (Amount.sumInRange (t.body.outputs.map (·.value) ++
      t.body.joinSplits.map (·.vpubOld) ++ [creations, locks, forwards])) := by
  have kinds (total : Amount) :
      List.foldlM (fun total values => do
          let part ← inRangeOr "value_cc_out" (Amount.sumInRange values)
          inRangeOr "value_out" (total.addInRange part)) total
        [t.body.creations.map (·.value), t.body.locks.map (·.value),
          t.body.forwards.map (·.value)] =
      inRangeOr "value_out" ([creations, locks, forwards].foldlM Amount.addInRange total) := by
    rw [← foldlM_inRangeOr]
    simp only [List.foldlM_cons, hcreations, hlocks, hforwards]
    rfl
  simp only [valueOut, outputTotal, foldlM_vpubOld, kinds, inRangeOr_bind]
  simp only [Amount.sumInRange, List.append_assoc, List.foldlM_append]

/-- The outputs for sidechains are worth what the creations, the locks and the forward transfers are
worth. -/
theorem crosschain_values (t : Transaction) : t.crosschain.map CrosschainOut.value =
    t.body.creations.map (·.value) ++ t.body.locks.map (·.value) ++
      t.body.forwards.map (·.value) := by
  simp only [crosschain, List.map_append, List.map_map]
  rfl

/-- What leaves a well-formed transaction, and what its joinsplits release, is in range. -/
theorem WellFormed.inRange_leaving (h : t.WellFormed) :
    (∀ v ∈ t.body.outputs.map (·.value) ++ t.body.joinSplits.map (·.vpubOld), v.inRange = true) ∧
      ∀ v ∈ t.crosschain.map CrosschainOut.value, v.inRange = true := by
  obtain ⟨houtputs, hjoinSplits, -⟩ := h .outputsAmount
  refine ⟨List.forall_mem_append.2 ⟨?_, ?_⟩, ?_⟩ <;> rw [List.forall_mem_map]
  · exact houtputs
  · exact fun js hjs => (hjoinSplits js hjs).1
  · intro o ho
    obtain ⟨hpos, hmax⟩ := (h .crosschain).1 o ho
    exact Bool.and_eq_true_iff.2 ⟨decide_eq_true (Int64.le_of_lt hpos), decide_eq_true hmax⟩

/-- The value of a well-formed transaction is a sum of amounts in range, and as an integer this sum
is all of what leaves. -/
theorem WellFormed.exists_leaving (h : t.WellFormed) : ∃ values : List Amount,
    t.valueOut = inRangeOr "value_out" (Amount.sumInRange values) ∧
      (∀ v ∈ values, v.inRange = true) ∧ Amount.total values = t.totalOut := by
  obtain ⟨hleaving, hcrosschain⟩ := h.inRange_leaving
  have htotal := (h .crosschain).2
  simp only [crosschain_values] at hcrosschain htotal
  -- one kind adds up to no more than all three
  have kind (values : List Amount) (hsub : values.Sublist (t.body.creations.map (·.value) ++
      t.body.locks.map (·.value) ++ t.body.forwards.map (·.value))) :=
    Amount.sumInRange_of_le (fun v hv => hcrosschain v (hsub.subset hv))
      (Int.le_trans (Amount.total_le_of_sublist hsub hcrosschain) htotal)
  obtain ⟨creations, hcreations, creationsIn, creationsExact⟩ :=
    kind (t.body.creations.map (·.value)) (by simp)
  obtain ⟨locks, hlocks, locksIn, locksExact⟩ := kind (t.body.locks.map (·.value)) (by simp)
  obtain ⟨forwards, hforwards, forwardsIn, forwardsExact⟩ :=
    kind (t.body.forwards.map (·.value)) (by simp)
  refine ⟨_, valueOut_eq hcreations hlocks hforwards, ?_, ?_⟩
  · simp only [List.forall_mem_append, List.forall_mem_cons] at hleaving ⊢
    exact ⟨hleaving, creationsIn, locksIn, forwardsIn, nofun⟩
  · simp only [Amount.total_append, Amount.total_cons, Amount.total_nil, creationsExact, locksExact,
      forwardsExact, totalOut, crosschain_values]
    omega

/-- What the joinsplits of an accepted transaction release is the exact sum. So is what leaves, if
any amount may be that much, and otherwise it is reported out of range. Without crosschain outputs
any amount may be what leaves. -/
theorem values_of_accepted {σ : Type} [RejectionSink σ] {sink : σ}
    (h : (t.checkWithoutProof sink).1 = true) :
    (∃ released : Amount, t.shieldedValueIn = .ok released ∧
      released.toInt = Amount.total (t.body.joinSplits.map (·.vpubNew))) ∧
    (t.totalOut ≤ maxMoney.toInt →
      ∃ leaving : Amount, t.valueOut = .ok leaving ∧ leaving.toInt = t.totalOut) ∧
    (maxMoney.toInt < t.totalOut → t.valueOut = .error (.outOfRange "value_out")) ∧
    (t.crosschain = [] → t.totalOut ≤ maxMoney.toInt) := by
  have wellFormed := accepted_iff.1 h
  obtain ⟨hnew, hnewTotal⟩ := wellFormed .inputsAmount
  obtain ⟨values, hvalueOut, hvalues, htotal⟩ := wellFormed.exists_leaving
  refine ⟨?_, fun hle => ?_, fun hlt => ?_, fun hnone => ?_⟩
  · obtain ⟨released, hsum, -, exact⟩ :=
      Amount.sumInRange_of_le (List.forall_mem_map.2 hnew) hnewTotal
    exact ⟨released, by rw [shieldedValueIn, hsum]; rfl, exact⟩
  · obtain ⟨leaving, hsum, -, exact⟩ := Amount.sumInRange_of_le hvalues (htotal ▸ hle)
    exact ⟨leaving, by rw [hvalueOut, hsum]; rfl, exact.trans htotal⟩
  · rw [hvalueOut, Amount.sumInRange_of_lt (htotal ▸ hlt)]
    rfl
  · have hmax := (wellFormed .outputsAmount).2.2
    rw [totalOut, hnone, List.map_nil, Amount.total_nil, Int.add_zero]
    exact hmax

/-- A sidechain transaction that spends an output, releases 7 from the shielded pool, pays `paid`
and forwards `forwarded`. -/
def paying (paid forwarded : Amount) : Transaction :=
  TxBody.freeze { TxBody.blank with
    version := Version.sidechain
    inputs := [⟨⟨Bytes.filled 32 0x77, 0⟩, ⟨[]⟩, 0⟩]
    outputs := [⟨paid, ⟨[0x51]⟩, false⟩]
    forwards := [⟨Bytes.zero, forwarded, Bytes.zero⟩]
    joinSplits := [{ JoinSplit.blank true with
      vpubNew := 7
      nullifiers := (Bytes.filled 32 1, Bytes.filled 32 2) }] }

/-- An output of 600 and a transfer of 5 add up. The largest amount and a transfer of 1 do not. -/
theorem values_of_accepted_paying :
    (∃ leaving : Amount, (paying 600 5).valueOut = .ok leaving ∧ leaving.toInt = 605) ∧
      (∃ released : Amount, (paying 600 5).shieldedValueIn = .ok released ∧ released.toInt = 7) ∧
      (paying maxMoney 1).valueOut = .error (.outOfRange "value_out") := by
  have accepted : ((paying 600 5).checkWithoutProof ValidationState.initial).1 = true := by
    decide +kernel
  have accepted' : ((paying maxMoney 1).checkWithoutProof ValidationState.initial).1 = true := by
    decide +kernel
  obtain ⟨hreleased, hleaving, -, -⟩ := values_of_accepted accepted
  obtain ⟨-, -, houtOfRange, -⟩ := values_of_accepted accepted'
  exact ⟨hleaving (by decide), hreleased, houtOfRange (by decide)⟩

/-- An accepted transaction may have no value. -/
theorem accepted_without_value :
    ¬ ∀ t : Transaction, (t.checkWithoutProof ValidationState.initial).1 = true →
      ∃ leaving : Amount, t.valueOut = .ok leaving := by
  intro valued
  obtain ⟨leaving, hleaving⟩ := valued (paying maxMoney 1) (by decide +kernel)
  have outOfRange : (paying maxMoney 1).valueOut = .error (.outOfRange "value_out") := rfl
  exact nomatch hleaving.symm.trans outOfRange

end Transaction
end ShieldedLedger
