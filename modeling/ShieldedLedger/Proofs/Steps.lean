import ShieldedLedger.Proofs.SpendIndex

/-!
# Runs step by step

A rescan is many steps at once: it takes in the records of one block after the other and moves the
tip (`stepsTo_rescan`). `RunOf known always` leads from an empty ledger over single steps in which
no record is seen but those in `known`, and after each of which `always` holds. So what is assumed
of the ledger at all times is assumed in the middle of a rescan too.
-/

namespace ShieldedLedger

/-- The operation is a single step, in which a record that is seen is one of those known. Entries
come from records that are seen: none is made up and handed in. -/
def Operation.IsStep (known : Record → Prop) : Operation → Prop
  | .sync r _ => known r
  | .addIfRelevant incoming _ _ => ∃ r, known r ∧ incoming = Entry.ofRecord r
  | .addEntry _ | .rescan _ => False
  | .registerSpends _ | .deriveNullifiers | .chainTip .. | .setBestChain _ | .clearWitnesses
  | .lockCoin _ | .unlockCoin _ | .unlockAllCoins | .erase _ | .markDirty | .markAffectedDirty _
  | .ask _ | .planResend .. | .setStore _ => True

namespace Ledger

variable {known : Record → Prop} {always : Ledger → Prop} {settings : Settings} {store : Store}
  {l : Ledger}

/-- What a run from an empty ledger leads to in single steps, after each of which `always` holds. -/
inductive RunOf (known : Record → Prop) (always : Ledger → Prop) (settings : Settings)
    (store : Store) : Ledger → Prop
  /-- A run starts from an empty ledger. -/
  | start : RunOf known always settings store (empty settings store)
  /-- It goes on with a step. -/
  | step {l : Ledger} (s : Surroundings) (op : Operation) :
    RunOf known always settings store l → op.IsStep known → always (op.apply s l) →
    RunOf known always settings store (op.apply s l)

/-- The last operation of a run comes after all others. -/
theorem after_concat (l : Ledger) (steps : List (Surroundings × Operation)) (s : Surroundings)
    (op : Operation) : l.after (steps ++ [(s, op)]) = op.apply s (l.after steps) :=
  List.foldl_append

/-- Single steps lead from one ledger to the other. -/
def StepsTo (known : Record → Prop) (l l' : Ledger) : Prop :=
  ∃ steps : List (Surroundings × Operation),
    (∀ step ∈ steps, step.2.IsStep known) ∧ l' = l.after steps

/-- Every ledger leads to itself. -/
theorem StepsTo.refl (l : Ledger) : StepsTo known l l :=
  ⟨[], fun _ h => absurd h List.not_mem_nil, rfl⟩

/-- One more step can be taken. -/
theorem StepsTo.next {l' : Ledger} (h : StepsTo known l l') (s : Surroundings) (op : Operation)
    (hop : op.IsStep known) : StepsTo known l (op.apply s l') := by
  obtain ⟨steps, hsteps, rfl⟩ := h
  refine ⟨steps ++ [(s, op)], fun step hstep => ?_, (after_concat l steps s op).symm⟩
  rcases List.mem_append.1 hstep with hstep | hstep
  · exact hsteps step hstep
  · rwa [List.mem_singleton.1 hstep]

/-- All records of the blocks that a source gives out are known. -/
def ShowsKnown (known : Record → Prop) (source : ChainSource) : Prop :=
  ∀ height index block, source.blockAt? height = some (index, block) → ∀ r ∈ block.records, known r

/-- A rescan comes to a sequence of steps. -/
theorem stepsTo_rescan (s : Surroundings) (request : ScanRequest) (l : Ledger)
    (hknown : ShowsKnown known s.chain) :
    StepsTo known l ((Operation.rescan request).apply s l) := by
  have kept : Keeps (StepsTo known l)
      (Ledger.rescan s.keys s.chain.toChainView s.now s.chain request) := by
    refine keeps_rescan_of_blocks (fun height index block hblock r hr l₁ hl₁ => ?_)
      (fun height index block tree _ l₁ hl₁ => ?_)
    · exact hl₁.next s (.addIfRelevant (Entry.ofRecord r) (some block) request.update)
        ⟨r, hknown _ _ _ hblock r hr, rfl⟩
    · exact hl₁.next s (.chainTip index block tree true) trivial
  exact kept l (.refl l)

namespace RunOf

/-- A run goes on with any number of steps, if `always` holds after each of them. -/
theorem after (hl : RunOf known always settings store l) :
    ∀ steps : List (Surroundings × Operation), (∀ step ∈ steps, step.2.IsStep known) →
      (∀ n < steps.length, always (l.after (steps.take (n + 1)))) →
      RunOf known always settings store (l.after steps) := by
  intro steps
  induction steps generalizing l with
  | nil => exact fun _ _ => hl
  | cons step rest ih =>
    intro hsteps halways
    have first := halways 0 (Nat.zero_lt_succ _)
    refine ih (l := step.2.apply step.1 l)
      (.step step.1 step.2 hl (hsteps step List.mem_cons_self) first)
      (fun step' hstep' => hsteps step' (List.mem_cons_of_mem _ hstep')) fun n hn => ?_
    exact halways (n + 1) (Nat.succ_lt_succ hn)

/-- What is assumed of the ledger at all times need not be used. -/
theorem weaken (hl : RunOf known always settings store l) :
    RunOf known (fun _ => True) settings store l := by
  induction hl with
  | start => exact .start
  | step s op _ hop _ ih => exact ih.step s op hop trivial

/-- Where nothing is assumed of the ledger, a run goes on with a rescan. -/
theorem rescan (hl : RunOf known (fun _ => True) settings store l) (s : Surroundings)
    (request : ScanRequest) (hknown : ShowsKnown known s.chain) :
    RunOf known (fun _ => True) settings store ((Operation.rescan request).apply s l) := by
  obtain ⟨steps, hsteps, h⟩ := stepsTo_rescan s request l hknown
  rw [h]
  exact hl.after steps hsteps fun _ _ => trivial

/-- What every step keeps of a ledger after which `always` holds is true of every run. -/
theorem induct {I : Ledger → Prop} (hl : RunOf known always settings store l)
    (start : I (empty settings store))
    (step : ∀ s op l, op.IsStep known → always (Operation.apply s op l) → I l →
      I (Operation.apply s op l)) : I l := by
  induction hl with
  | start => exact start
  | step s op _ hop halways ih => exact step s op _ hop halways ih

/-- After a run of single steps too, the index of spenders is in step with the entries. -/
theorem spendIndexed (hl : RunOf known always settings store l) : SpendIndexed l :=
  hl.induct (spendIndexed_empty settings store) fun s op _ _ _ hl => hl.apply s op

end RunOf
end Ledger
end ShieldedLedger
