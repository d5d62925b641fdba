import ShieldedLedger.Proofs.Amounts.Balances
import ShieldedLedger.Proofs.Conflicts

/-!
# When coinbases mature

A coinbase can be spent when it is deeper than the settings ask for. Until then it credits nothing:
its credit and what is available of it are nothing, a balance is the sum of what the other entries
add to it, and a listing of coins is put together from those of the others (`Ledger.Withheld`). What
it pays us is its immature credit then (`Ledger.recordCredit_eq_ok_iff`).

The number of blocks that are missing (`Ledger.blocksToMaturity`) is computed in 32-bit words that
wrap around, as they do where overflow is not checked. They hold it up to `2 ^ 31 - 1`, and a
coinbase for which more blocks are missing is taken to be mature (`Ledger.coinbase_withheld`). Where
overflow is checked the computation stops when one of its steps leaves the words
(`Ledger.WaitFits`). For settings up to `2 ^ 31 - 2` none does, so that this is how it is with and
without the check; for `2 ^ 31 - 1` one always does, and beyond one does exactly if fewer than
`2 ^ 31` blocks are missing.
-/

namespace ShieldedLedger

/-- A 32-bit setting as a 32-bit integer wraps around. -/
theorem toInt_toInt32 (setting : UInt32) :
    setting.toInt32.toInt = (setting.toNat : Int).bmod (2 ^ 32) :=
  BitVec.toInt_eq_toNat_bmod setting.toBitVec

/-- So do the blocks that are missing, from `2 ^ 31` on. -/
theorem toInt_missing (maturity : UInt32) {depth : Int} (hpos : 0 ≤ depth)
    (hdepth : depth < 2147483648) :
    (maturity.toInt32 + 1 - Int32.ofInt depth).toInt =
      if maturity.toNat + 1 - depth < 2147483648 then maturity.toNat + 1 - depth
      else maturity.toNat + 1 - depth - 4294967296 := by
  have bound := maturity.toNat_lt
  have one : (1 : Int32).toInt = 1 := by decide
  rw [Int32.toInt_sub, Int32.toInt_add, Int32.toInt_ofInt_of_le (by omega) (by omega),
    toInt_toInt32, one, Int.bmod_add_bmod, Int.bmod_sub_bmod]
  simp only [Int.bmod]
  split <;> omega

/-- On the integers, too, a negative number is raised to 0. -/
theorem toInt_max_zero (n : Int32) : (max n 0).toInt = max n.toInt 0 := by
  have zero : (0 : Int32).toInt = 0 := by decide
  have order := Int32.le_iff_toInt_le (x := n) (y := 0)
  rw [zero] at order
  show (if n ≤ 0 then 0 else n : Int32).toInt = _
  split
  · next h => rw [zero, max_eq_right (order.1 h)]
  · next h => rw [max_eq_left (not_le.1 (mt order.2 h)).le]

/-- Where every item has an amount, they are added up as values. -/
theorem sumAmounts_eq_sumValues {α : Type} {quantity : String} {f : α → Except LedgerError Amount}
    {g : α → Amount} {items : List α} (h : ∀ item ∈ items, f item = .ok (g item)) :
    sumAmounts quantity f items = sumValues quantity (items.map g) := by
  unfold sumAmounts sumValues Amount.sumInRange
  generalize (0 : Amount) = start
  induction items generalizing start with
  | nil => rfl
  | cons item rest ih =>
    rw [List.foldlM_cons, List.map_cons, List.foldlM_cons, h item List.mem_cons_self]
    cases hadd : start.addInRange (g item) with
    | none => simp [hadd, bind, Except.bind]
    | some next =>
      simp only [hadd, bind, Except.bind]
      exact ih (fun item hitem => h item (List.mem_cons_of_mem _ hitem)) next

/-- Values have a sum if and only if adding them up never leaves the range. -/
theorem sumValues_eq_ok_iff {quantity : String} {values : List Amount} {v : Amount} :
    sumValues quantity values = .ok v ↔ Amount.sumInRange values = some v := by
  unfold sumValues
  cases Amount.sumInRange values <;> simp

namespace Ledger

variable {keys : KeyView} {chain : ChainView} {l : Ledger} {hash : Hash256} {e : Entry}

/-! ## The wait -/

/-- The depth that a coinbase lacks before it can be spent. -/
def missingDepth (l : Ledger) (chain : ChainView) (e : Entry) : Int :=
  l.settings.coinbaseMaturity.toNat + 1 - l.depthOf chain e

/-- A coinbase claims nothing, so it is never conflicted. -/
theorem depthOf_nonneg_of_isCoinbase (hchain : WithinTip chain)
    (hbase : e.record.isCoinbase = true) : 0 ≤ l.depthOf chain e := by
  cases hc : confirmedHeight? chain e with
  | some height =>
    have bounded := hchain.confirmedHeight?_le hc
    rw [depthOf_of_confirmed hc]
    omega
  | none =>
    have unclaimed : l.isConflicted chain e = false := by
      have keys : e.spendKeys = [] := by simp [Entry.spendKeys, Record.spendKeys, hbase]
      simp [isConflicted, keys]
    simp [depthOf_of_unconfirmed hc, unclaimed]

/-- No step of the computation leaves the 32-bit words: not the setting as a signed number and one
more, nor that without the depth. -/
def WaitFits (l : Ledger) (chain : ChainView) (e : Entry) : Prop :=
  let next := l.settings.coinbaseMaturity.toInt32.toInt + 1
  next < 2147483648 ∧
    -2147483648 ≤ next - l.depthOf chain e ∧ next - l.depthOf chain e < 2147483648

/-- One does for the setting `2 ^ 31 - 1`, and beyond it if a 32-bit word holds what is lacking. -/
theorem waitFits_iff (hpos : 0 ≤ l.depthOf chain e) (hdepth : l.depthOf chain e < 2147483648) :
    l.WaitFits chain e ↔ l.settings.coinbaseMaturity.toNat < 2147483647 ∨
      2147483648 ≤ l.settings.coinbaseMaturity.toNat ∧ 2147483648 ≤ l.missingDepth chain e := by
  have bound := l.settings.coinbaseMaturity.toNat_lt
  unfold WaitFits missingDepth
  rw [toInt_toInt32, Int.bmod]
  split <;> omega

/-- It waits for what it lacks, if a 32-bit word holds that; otherwise it does not wait. -/
theorem blocksToMaturity_eq (hchain : WithinTip chain) (hbase : e.record.isCoinbase = true)
    (hdepth : l.depthOf chain e < 2147483648) :
    l.blocksToMaturity chain e =
      if l.missingDepth chain e < 2147483648 then max (l.missingDepth chain e) 0 else 0 := by
  have hpos := depthOf_nonneg_of_isCoinbase (l := l) hchain hbase
  have bound := l.settings.coinbaseMaturity.toNat_lt
  have missing := toInt_missing l.settings.coinbaseMaturity hpos hdepth
  unfold blocksToMaturity Entry.matures missingDepth
  simp only [hbase, Bool.not_true, Bool.false_eq_true, if_false]
  rw [toInt_max_zero, missing]
  split <;> omega

/-! ## What is owned of a record -/

/-- The value of an output if a filter counts it as ours. -/
def credited (keys : KeyView) (filter : OwnershipFilter) (o : TxOut) : Amount :=
  if filter.counts (keys.ownership o.script) then o.value else 0

/-- What the outputs are worth that a filter counts as ours. -/
def ownedWorth (keys : KeyView) (filter : OwnershipFilter) (outputs : List TxOut) : Int :=
  Amount.total (outputs.map (credited keys filter))

/-- What an output with a valid amount credits is a valid amount. -/
theorem credited_inRange {filter : OwnershipFilter} {o : TxOut} (h : o.value.inRange = true) :
    (credited keys filter o).inRange = true := by
  unfold credited
  split
  · exact h
  · rfl

/-- Of valid amounts, no one owns less than nothing. -/
theorem ownedWorth_nonneg (keys : KeyView) (filter : OwnershipFilter) {outputs : List TxOut}
    (h : ∀ o ∈ outputs, o.value.inRange = true) : 0 ≤ ownedWorth keys filter outputs := by
  refine Amount.total_nonneg fun value hvalue => ?_
  obtain ⟨o, ho, rfl⟩ := List.mem_map.1 hvalue
  exact credited_inRange (h o ho)

/-- What is ours is ours to spend or watched. -/
theorem ownedWorth_all (outputs : List TxOut) : ownedWorth keys .all outputs =
    ownedWorth keys .spendable outputs + ownedWorth keys .watchOnly outputs := by
  have zero : (0 : Amount).toInt = 0 := rfl
  unfold ownedWorth
  induction outputs with
  | nil => rfl
  | cons o rest ih =>
    have parts : (credited keys .all o).toInt =
        (credited keys .spendable o).toInt + (credited keys .watchOnly o).toInt := by
      unfold credited
      cases keys.ownership o.script <;> simp [OwnershipFilter.counts, zero]
    simp only [List.map_cons, Amount.total_cons, ih, parts]
    omega

/-- The credit of an output with a valid amount is what it credits. -/
theorem outputCredit_eq {filter : OwnershipFilter} {o : TxOut} (h : o.value.inRange = true) :
    outputCredit keys filter o = .ok (credited keys filter o) := by
  unfold outputCredit credited
  rw [h]
  rfl

/-- An output that has a credit has a valid amount. -/
theorem inRange_of_outputCredit {filter : OwnershipFilter} {o : TxOut} {v : Amount}
    (h : outputCredit keys filter o = .ok v) : o.value.inRange = true := by
  unfold outputCredit at h
  split at h
  · cases h
  · next hrange => simpa using hrange

/-- What a record pays us is what it holds of ours, if its outputs are in range and that is. -/
theorem recordCredit_eq_ok_iff {r : Record} {filter : OwnershipFilter} {v : Amount} :
    recordCredit keys r filter = .ok v ↔ (∀ o ∈ r.outputs, o.value.inRange = true) ∧
      ownedWorth keys filter r.outputs ≤ maxMoney.toInt ∧
      v.toInt = ownedWorth keys filter r.outputs := by
  have added (h : ∀ o ∈ r.outputs, o.value.inRange = true) :
      recordCredit keys r filter = .ok v ↔
        ownedWorth keys filter r.outputs ≤ maxMoney.toInt ∧
          v.toInt = ownedWorth keys filter r.outputs := by
    have credits : ∀ value ∈ r.outputs.map (credited keys filter), value.inRange = true := by
      intro value hvalue
      obtain ⟨o, ho, rfl⟩ := List.mem_map.1 hvalue
      exact credited_inRange (h o ho)
    unfold recordCredit
    rw [sumAmounts_eq_sumValues fun o ho => outputCredit_eq (h o ho), sumValues_eq_ok_iff,
      Amount.sumInRange_eq_some_iff]
    exact and_iff_right credits
  constructor
  · intro h
    have inRange : ∀ o ∈ r.outputs, o.value.inRange = true := fun o ho => by
      obtain ⟨value, hvalue⟩ := (toInt_of_sumAmounts h).1 o ho
      exact inRange_of_outputCredit hvalue
    exact ⟨inRange, (added inRange).1 h⟩
  · rintro ⟨inRange, h⟩
    exact (added inRange).2 h

/-- It does pay that then. -/
theorem exists_recordCredit {r : Record} (keys : KeyView) (filter : OwnershipFilter)
    (h : ∀ o ∈ r.outputs, o.value.inRange = true)
    (hle : ownedWorth keys filter r.outputs ≤ maxMoney.toInt) :
    ∃ v, recordCredit keys r filter = .ok v ∧ v.toInt = ownedWorth keys filter r.outputs := by
  have nonneg := ownedWorth_nonneg keys filter h
  have most : maxMoney.toInt = 2100000000000000 := rfl
  have exact : (Int64.ofInt (ownedWorth keys filter r.outputs)).toInt =
      ownedWorth keys filter r.outputs := Int64.toInt_ofInt_of_le (by omega) (by omega)
  exact ⟨_, recordCredit_eq_ok_iff.2 ⟨h, hle, exact⟩, exact⟩

/-- The first part of a total is the part. -/
theorem addOutcome_zero {quantity : String} {outcome : Except LedgerError Amount}
    (h : ∀ v, outcome = .ok v → v.inRange = true) :
    OwnedAmounts.addOutcome quantity (.ok 0) outcome = outcome := by
  cases outcome with
  | error e => rfl
  | ok v => exact OwnedAmounts.addOutcome_zero_eq_ok_iff.2 ⟨rfl, h v rfl⟩

/-- Two parts have a total if it is in range. -/
theorem addOutcome_eq_ok_iff {quantity : String} {v : Amount}
    {outcome outcome' : Except LedgerError Amount} :
    OwnedAmounts.addOutcome quantity outcome outcome' = .ok v ↔
      ∃ a b, outcome = .ok a ∧ outcome' = .ok b ∧ a.addInRange b = some v := by
  cases outcome with
  | error e => simp [OwnedAmounts.addOutcome, bind, Except.bind]
  | ok a =>
    cases outcome' with
    | error e => simp [OwnedAmounts.addOutcome, bind, Except.bind]
    | ok b => cases h : a.addInRange b <;> simp [OwnedAmounts.addOutcome, bind, Except.bind, h]

/-- What a record pays us in total is what it holds of ours of the kinds that a filter counts. -/
theorem freshTotal_eq_ok_iff {r : Record} (quantity : String) {filter : OwnershipFilter}
    {v : Amount} : OwnedAmounts.freshTotal quantity filter (recordCredit keys r) = .ok v ↔
      (∀ o ∈ r.outputs, o.value.inRange = true) ∧
      ownedWorth keys filter r.outputs ≤ maxMoney.toInt ∧
      v.toInt = ownedWorth keys filter r.outputs := by
  have first (part : OwnershipFilter) :
      OwnedAmounts.addOutcome quantity (.ok 0) (recordCredit keys r part) =
        recordCredit keys r part :=
    addOutcome_zero fun _ h => inRange_of_sumAmounts h
  unfold OwnedAmounts.freshTotal
  cases filter with
  | spendable =>
    show OwnedAmounts.addOutcome quantity (.ok 0) (recordCredit keys r .spendable) = .ok v ↔ _
    rw [first, recordCredit_eq_ok_iff]
  | watchOnly =>
    show OwnedAmounts.addOutcome quantity (.ok 0) (recordCredit keys r .watchOnly) = .ok v ↔ _
    rw [first, recordCredit_eq_ok_iff]
  | all =>
    show OwnedAmounts.addOutcome quantity
      (OwnedAmounts.addOutcome quantity (.ok 0) (recordCredit keys r .spendable))
      (recordCredit keys r .watchOnly) = .ok v ↔ _
    rw [first, addOutcome_eq_ok_iff, ownedWorth_all]
    constructor
    · rintro ⟨a, b, ha, hb, hv⟩
      obtain ⟨inRange, -, ha⟩ := recordCredit_eq_ok_iff.1 ha
      obtain ⟨-, -, hb⟩ := recordCredit_eq_ok_iff.1 hb
      obtain ⟨-, hrange, exact⟩ := Amount.addInRange_eq_some_iff.1 hv
      have most := (Amount.inRange_iff.1 hrange).2
      rw [exact, ha, hb] at most
      exact ⟨inRange, most, by rw [exact, ha, hb]⟩
    · rintro ⟨inRange, most, exact⟩
      have spendable := ownedWorth_nonneg keys .spendable inRange
      have watched := ownedWorth_nonneg keys .watchOnly inRange
      obtain ⟨a, hcredit, ha⟩ := exists_recordCredit keys .spendable inRange (by omega)
      obtain ⟨b, hcredit', hb⟩ := exists_recordCredit keys .watchOnly inRange (by omega)
      refine ⟨a, b, hcredit, hcredit', Amount.addInRange_eq_some_iff.2 ⟨?_, ?_, ?_⟩⟩
      · exact inRange_of_sumAmounts hcredit'
      · exact Amount.inRange_iff.2 ⟨by omega, exact ▸ most⟩
      · rw [exact, ha, hb]

/-- The outcome is what is ours of the outputs of a record: it is given if they are in range and
what is ours of them is, and it is exact. -/
def TellsOwned (keys : KeyView) (filter : OwnershipFilter) (r : Record)
    (outcome : Except Failure Amount) : Prop :=
  ∀ v, outcome = .ok v ↔ (∀ o ∈ r.outputs, o.value.inRange = true) ∧
    ownedWorth keys filter r.outputs ≤ maxMoney.toInt ∧ v.toInt = ownedWorth keys filter r.outputs

/-! ## What is withheld -/

/-- The entry credits nothing, and adds nothing to a balance or to a listing of coins. -/
structure Withheld (keys : KeyView) (chain : ChainView) (l : Ledger) (hash : Hash256) : Prop where
  credit : ∀ filter, (amount keys chain .credit hash filter l).1 = .ok 0
  available : ∀ filter, (amount keys chain .available hash filter l).1 = .ok 0
  balance : ∀ filter v, (trustedBalance keys chain filter l).1 = .ok v → v.toInt =
    ((l.entries.keys.filter (· != hash)).map fun other =>
      amountOf (trustedAmount keys chain filter other l).1).sum
  coins : ∀ q coins, (availableCoins keys chain q l).1 = .ok coins → coins =
    (l.entries.keys.filter (· != hash)).flatMap fun other =>
      (entryCoins keys chain q other l).1.toOption.getD []

/-- Items of which nothing comes may be left out. -/
theorem flatMap_filter_of_eq_nil {α β : Type} {p : α → Bool} {f : α → List β} {items : List α}
    (h : ∀ item ∈ items, p item = false → f item = []) :
    (items.filter p).flatMap f = items.flatMap f := by
  induction items with
  | nil => rfl
  | cons item rest ih =>
    have rest := ih fun item hitem => h item (List.mem_cons_of_mem _ hitem)
    cases hp : p item with
    | true => simp [hp, rest]
    | false => simp [hp, rest, h item List.mem_cons_self hp]

/-- A coinbase that waits is withheld. -/
theorem withheld_of_waiting (he : l.entry? hash = some e) (hbase : e.record.isCoinbase = true)
    (hwaits : 0 < l.blocksToMaturity chain e) : Withheld keys chain l hash := by
  have waits : ¬ l.blocksToMaturity chain e ≤ 0 := by omega
  have nothing {kind : AmountKind} (hkind : kind = .credit ∨ kind = .available) :
      l.hasAmount chain kind e = false := by
    rcases hkind with rfl | rfl <;> exact decide_eq_false waits
  have available (filter : OwnershipFilter) :
      (amount keys chain .available hash filter l).1 = .ok 0 :=
    amount_fst_of_not he (nothing (.inr rfl)) filter
  refine ⟨amount_fst_of_not he (nothing (.inl rfl)), available, ?_, ?_⟩
  · intro filter v h
    obtain ⟨hall, hv⟩ := toInt_of_sumEntries steady_trustedAmount
      (show (sumEntries (trustedAmount keys chain filter) l).1 = .ok v from h)
    rw [hv, sum_map_filter]
    congr 1
    refine List.map_congr_left fun other hmem => ?_
    by_cases heq : other = hash
    · subst heq
      obtain ⟨value, hvalue⟩ := hall other hmem
      rw [hvalue]
      rcases trustedAmount_eq_ok_iff.1 hvalue with ⟨-, rfl⟩ | ⟨-, hamount⟩
      · simp [amountOf]
      · obtain rfl := Except.ok.inj ((available filter).symm.trans hamount)
        simp [amountOf]
    · simp [heq]
  · intro q coins h
    obtain ⟨parts, rfl⟩ := availableCoins_eq_ok_iff.1 h
    refine (flatMap_filter_of_eq_nil fun other hmem heq => ?_).symm
    obtain rfl : other = hash := by simpa using heq
    obtain ⟨part, hpart⟩ := parts other hmem
    have unlisted : l.lists chain q e ≠ true := fun h => waits ((lists_eq_true_iff.1 h).2 hbase).2
    rw [hpart]
    rcases (entryCoins_eq_ok_iff he).1 hpart with ⟨_, -, ⟨-, rfl⟩ | ⟨hlisted, -⟩⟩
    · rfl
    · exact absurd (Bool.and_eq_true_iff.1 hlisted).2 unlisted

/-! ## What is told of it -/

variable {seen : Ledger → ChainView → Prop} {kind : AmountKind}

/-- The credit and the immature credit are memoized as they are computed from scratch. -/
theorem Remembers.isExact (hl : Remembers keys seen l) (he : l.entry? hash = some e)
    (hkind : kind = .credit ∨ kind = .immature) (hhas : l.hasAmount chain kind e = true) :
    (e.memo.get kind).IsExact (l.freshAmount keys chain kind e) := by
  intro part v hv
  by_contra hstale
  obtain ⟨_, _, heq, h⟩ := hl.kind_of_stale
    (⟨e, he, hv, hhas, hstale⟩ : Stale keys chain l hash (.owned kind part) v)
  obtain ⟨rfl, -⟩ := MemoCell.owned.inj heq
  rcases hkind with rfl | rfl <;> simp at h

/-- They are what the record pays us. -/
theorem Remembers.tellsOwned (hl : Remembers keys seen l) (he : l.entry? hash = some e)
    (hkind : kind = .credit ∨ kind = .immature) (hhas : l.hasAmount chain kind e = true)
    (filter : OwnershipFilter) :
    TellsOwned keys filter e.record (amount keys chain kind hash filter l).1 := by
  intro v
  have fresh : l.freshAmount keys chain kind e = recordCredit keys e.record := by
    rcases hkind with rfl | rfl <;> rfl
  rw [amount_fst he hhas, OwnedAmounts.total_of_isExact (hl.isExact he hkind hhas), fresh,
    ← freshTotal_eq_ok_iff kind.quantity]
  cases OwnedAmounts.freshTotal kind.quantity filter (recordCredit keys e.record) <;>
    simp [Except.mapError]

/-! ## Runs -/

/-- After every run, a coinbase that is not deeper than the settings ask for is withheld, and once
it is in a block, and the keys have been the same all along, what it pays us is its immature credit.
This holds as long as fewer than `2 ^ 31` blocks are missing. Where more are, the coinbase is taken
to be mature: it is listed if coinbases are, and what it pays us is its credit at once. The depth is
one that a 32-bit word holds, as depths are kept in such words.

The words wrap around here. Where overflow is checked instead, the wait is computed in the first
case exactly if the setting is below `2 ^ 31 - 1`, and in the second exactly if it is above. -/
theorem coinbase_withheld (settings : Settings) (store : Store)
    (steps : List (Surroundings × Operation)) (keys : KeyView) (chain : ChainView)
    (hchain : WithinTip chain) :
    let l := (empty settings store).after steps
    let sameKeys := ∀ step ∈ steps, step.1.keys = keys
    ∀ hash e, l.entry? hash = some e → e.record.isCoinbase = true →
      l.depthOf chain e < 2147483648 →
      let depth := l.depthOf chain e
      let maturity : Int := l.settings.coinbaseMaturity.toNat
      (maturity + 1 - depth < 2147483648 →
        (l.WaitFits chain e ↔ maturity < 2147483647) ∧
        l.blocksToMaturity chain e = max (maturity + 1 - depth) 0 ∧
        (depth ≤ maturity → Withheld keys chain l hash) ∧
        (1 ≤ depth → depth ≤ maturity → sameKeys → ∀ filter,
          TellsOwned keys filter e.record (amount keys chain .immature hash filter l).1)) ∧
      (2147483648 ≤ maturity + 1 - depth →
        (l.WaitFits chain e ↔ 2147483647 < maturity) ∧
        l.blocksToMaturity chain e = 0 ∧
        (∀ q, l.lists chain q e = q.includeCoinbase) ∧
        (∀ filter, (amount keys chain .immature hash filter l).1 = .ok 0) ∧
        (sameKeys → ∀ filter,
          TellsOwned keys filter e.record (amount keys chain .credit hash filter l).1)) := by
  intro l sameKeys hash e he hbase hdepth depth maturity
  have hpos : 0 ≤ depth := depthOf_nonneg_of_isCoinbase hchain hbase
  have blocks := blocksToMaturity_eq hchain hbase hdepth
  have fits := waitFits_iff hpos hdepth
  have missing : l.missingDepth chain e = maturity + 1 - depth := rfl
  -- The empty ledger remembers nothing, so under the same keys every memo was filled on the run.
  have remembers (h : sameKeys) :
      Remembers keys (fun l₀ view => False ∨ AskedIn (empty settings store) steps l₀ view) l :=
    after_remembers h fun hash e cell v he => nomatch he
  rw [missing] at blocks fits
  constructor
  · intro hfits
    rw [if_pos hfits] at blocks
    have waits (h : depth ≤ maturity) : 0 < l.blocksToMaturity chain e := by omega
    refine ⟨fits.trans ⟨by omega, by omega⟩, blocks,
      fun h => withheld_of_waiting he hbase (waits h), fun hmined h hkeys => ?_⟩
    have immature : l.hasAmount chain .immature e = true := by
      have := waits h
      simp only [hasAmount, Entry.matures, hbase, Bool.true_and, Bool.and_eq_true,
        decide_eq_true_eq]
      exact ⟨this, by omega⟩
    exact (remembers hkeys).tellsOwned he (.inr rfl) immature
  · intro hwraps
    rw [if_neg (by omega)] at blocks
    refine ⟨fits.trans ⟨by omega, by omega⟩, blocks, fun q => ?_, ?_, fun hkeys => ?_⟩
    · have current : ¬ l.depthOf chain e < 0 := by omega
      simp [lists, hbase, blocks, current]
    · exact amount_fst_of_not he (by simp [hasAmount, blocks])
    · exact (remembers hkeys).tellsOwned he (.inl rfl) (by simp [hasAmount, blocks])

/-- A coinbase that pays us. -/
def minedCoinbase : Transaction := (Simulation.coinbasePaying Simulation.ourTag 500 1).freeze

/-- A chain with this coinbase in its only block. -/
def minedChain : Simulation.ChainBlock × Simulation.Chain :=
  Simulation.Chain.empty.push "mined" [.transaction minedCoinbase]

/-- The coinbase is seen in the block. -/
def minedSteps : List (Surroundings × Operation) :=
  [(⟨Simulation.Keys.fresh.view, minedChain.2.source, 0⟩,
    .sync (.transaction minedCoinbase) (some minedChain.1.block))]

/-- Settings under which a coinbase waits for a number of blocks. -/
def waitingFor (maturity : UInt32) : Settings :=
  { Settings.default with coinbaseMaturity := maturity }

/-- A ledger that has seen the coinbase. -/
def mined (maturity : UInt32) : Ledger :=
  (empty (waitingFor maturity) Store.empty).after minedSteps

/-- What the ledger holds. -/
theorem mined_computed (maturity : UInt32) (h : maturity = 100 ∨ maturity = 4294967295) :
    (mined maturity).settings.coinbaseMaturity = maturity ∧
      ∃ e, Ledger.entry? (mined maturity) minedCoinbase.hash = some e ∧ e.record.isCoinbase = true ∧
        (mined maturity).depthOf minedChain.2.view e = 1 ∧
        (∀ o ∈ e.record.outputs, o.value.inRange = true) ∧
        ownedWorth Simulation.Keys.fresh.view .all e.record.outputs = 500 := by
  have computed : ([100, 4294967295] : List UInt32).all (fun maturity =>
      decide ((mined maturity).settings.coinbaseMaturity = maturity) &&
      (Ledger.entry? (mined maturity) minedCoinbase.hash).any fun e => e.record.isCoinbase &&
        decide ((mined maturity).depthOf minedChain.2.view e = 1) &&
        (e.record.outputs.all fun o => o.value.inRange) &&
        decide (ownedWorth Simulation.Keys.fresh.view .all e.record.outputs = 500)) = true := by
    decide +kernel
  obtain ⟨settings, found⟩ := Bool.and_eq_true_iff.1
    (List.all_eq_true.1 computed maturity (by simpa using h))
  obtain ⟨e, he, h⟩ := (Option.any_eq_true _ _).1 found
  simp only [Bool.and_eq_true, decide_eq_true_eq, List.all_eq_true] at h
  exact ⟨of_decide_eq_true settings, e, he, h.1.1.1, h.1.1.2, h.1.2, h.2⟩

/-- It is withheld where it has to wait for 100 blocks. Where it has to wait for `2 ^ 32 - 1` it can
be spent at once. -/
theorem coinbase_withheld_mined :
    let keys := Simulation.Keys.fresh.view
    let chain := minedChain.2.view
    let ask (maturity : UInt32) (kind : AmountKind) :=
      (amount keys chain kind minedCoinbase.hash .all (mined maturity)).1
    WithinTip chain ∧
      Withheld keys chain (mined 100) minedCoinbase.hash ∧ ask 100 .immature = .ok 500 ∧
      ask 4294967295 .immature = .ok 0 ∧ ask 4294967295 .credit = .ok 500 := by
  intro keys chain ask
  have hchain : WithinTip chain := by
    intro block height h
    obtain ⟨b, hb, rfl⟩ := Option.map_eq_some_iff.1 h
    obtain rfl := List.mem_singleton.1 (List.mem_of_find?_eq_some hb)
    exact Int.le_refl 0
  have sameKeys : ∀ step ∈ minedSteps, step.1.keys = keys := by
    intro step hstep
    obtain rfl := List.mem_singleton.1 hstep
    rfl
  obtain ⟨settings, e, he, hbase, depth, inRange, owned⟩ := mined_computed 100 (.inl rfl)
  have fits : ((mined 100).settings.coinbaseMaturity.toNat : Int) + 1 -
      (mined 100).depthOf chain e < 2147483648 := by rw [settings, depth]; decide
  have waits : (mined 100).depthOf chain e ≤ (mined 100).settings.coinbaseMaturity.toNat := by
    rw [settings, depth]
    decide
  obtain ⟨-, -, withheld, immature⟩ := (coinbase_withheld (waitingFor 100) Store.empty minedSteps
    keys chain hchain minedCoinbase.hash e he hbase (depth ▸ by decide)).1 fits
  obtain ⟨settings', e', he', hbase', depth', inRange', owned'⟩ :=
    mined_computed 4294967295 (.inr rfl)
  have wraps : 2147483648 ≤ ((mined 4294967295).settings.coinbaseMaturity.toNat : Int) + 1 -
      (mined 4294967295).depthOf chain e' := by rw [settings', depth']; decide
  obtain ⟨-, -, -, nothing, credit⟩ := (coinbase_withheld (waitingFor 4294967295) Store.empty
    minedSteps keys chain hchain minedCoinbase.hash e' he' hbase' (depth' ▸ by decide)).2 wraps
  have pays : (500 : Amount).toInt = 500 := rfl
  refine ⟨hchain, withheld waits, ?_, nothing .all, ?_⟩
  · refine (immature depth.ge waits sameKeys .all 500).2 ⟨inRange, ?_, ?_⟩
    · rw [owned]; decide
    · rw [owned, pays]
  · refine (credit sameKeys .all 500).2 ⟨inRange', ?_, ?_⟩
    · rw [owned']; decide
    · rw [owned', pays]

end Ledger

end ShieldedLedger
