import Mathlib.Algebra.Order.BigOperators.Group.List
import ShieldedLedger.Proofs.Selection.Taken

/-!
# When coinbases are reported as needed

A selection reports how coinbases bear on it, whether it succeeds or the funds do not suffice. It
goes by two lists, of which one leaves the coinbases out: they are reported as needed if they are
protected, the lists differ, the shorter one does not exceed the target, and the longer one reaches
it (`CoinbaseNeed.needed_of_ofCoins`). No part of a selection but the last is refused for want of
funds (`NeverShort`), so what is reported is read off these lists (`exists_need_of_reportedNeed`).

Where the coins without coinbases amount to just the target, they reach it, and coinbases are
reported as needed all the same (`Ledger.reportedNeed_iff`).
-/

namespace ShieldedLedger

/-- What an error tells of coinbases. -/
def LedgerError.need? : LedgerError → Option CoinbaseNeed
  | .insufficientFunds _ only needed => some ⟨only, needed⟩
  | _ => none

/-- How coinbases bear on a selection, as the outcome tells: of a selection that is made, or of one
that is refused for want of funds. -/
def reportedNeed : Except Failure CoinSelection → Option CoinbaseNeed
  | .ok selection => some selection.coinbase
  | .error (.error e) => e.need?
  | .error (.fault _) => none

/-! ## Never refused for want of funds -/

/-- What is computed may fail, but not for want of funds. -/
def NeverShort {α : Type} (x : Except LedgerError α) : Prop :=
  ∀ e, x = .error e → e.need? = none

namespace NeverShort

variable {α β : Type} {x : Except LedgerError α}

theorem ok (a : α) : NeverShort (.ok a) := nofun

theorem error {e : LedgerError} (h : e.need? = none) :
    NeverShort (.error e : Except LedgerError α) := by
  rintro _ ⟨⟩
  exact h

/-- Two computations in a row are not short of funds if neither is. -/
theorem bind {f : α → Except LedgerError β} (hx : NeverShort x) (hf : ∀ a, NeverShort (f a)) :
    NeverShort (x >>= f) := by
  intro e h
  cases x with
  | ok a => exact hf a e h
  | error e' =>
    obtain rfl := Except.error.inj h
    exact hx _ rfl

/-- A computation for each item is not short of funds if none of them is. -/
theorem mapM {f : α → Except LedgerError β} (hf : ∀ a, NeverShort (f a)) (items : List α) :
    NeverShort (items.mapM f) := by
  induction items with
  | nil => exact ok _
  | cons item rest ih =>
    rw [List.mapM_cons]
    exact bind (hf item) fun _ => bind ih fun _ => ok _

/-- A sum of amounts may leave the range, but not be short of funds. -/
theorem sumAmounts {f : α → Except LedgerError Amount} (hf : ∀ a, NeverShort (f a))
    (quantity : String) (items : List α) :
    NeverShort (ShieldedLedger.sumAmounts quantity f items) := by
  intro e h
  obtain ⟨item, -, hitem⟩ | rfl := sumAmounts_error h
  · exact hf item e hitem
  · rfl

/-- And so may a sum of values. -/
theorem sumValues (quantity : String) (values : List Amount) :
    NeverShort (ShieldedLedger.sumValues quantity values) := by
  unfold ShieldedLedger.sumValues
  split
  · exact ok _
  · exact error rfl

end NeverShort

/-- The operation may fail, but not for want of funds. -/
def NeverShortOp {α : Type} (op : LedgerOp α) : Prop :=
  ∀ l e, (op l).1 = .error (.error e) → e.need? = none

namespace NeverShortOp

variable {α β : Type}

theorem pure (a : α) : NeverShortOp (Pure.pure a : LedgerOp α) := by
  intro l e h
  have answer : (Except.ok a : Except Failure α) = .error (.error e) := h
  cases answer

theorem get : NeverShortOp (MonadState.get : LedgerOp Ledger) := by
  intro l e h
  have answer : (Except.ok l : Except Failure Ledger) = .error (.error e) := h
  cases answer

theorem refuse {e : LedgerError} (h : e.need? = none) :
    NeverShortOp (LedgerOp.refuse e : LedgerOp α) := by
  intro l e' h'
  have refused : (Except.error (.error e) : Except Failure α) = .error (.error e') := h'
  obtain rfl : e = e' := by simpa using refused
  exact h

theorem ask {f : Ledger → Except LedgerError α} (hf : ∀ l, NeverShort (f l)) :
    NeverShortOp (LedgerOp.ask f) := by
  intro l e h
  unfold LedgerOp.ask at h
  split at h
  · cases h
  · next e' he =>
    obtain rfl : e' = e := by simpa using h
    exact hf l _ he

/-- Two operations in a row are not short of funds if neither is. -/
theorem bind {op : LedgerOp α} {f : α → LedgerOp β} (hop : NeverShortOp op)
    (hf : ∀ a, NeverShortOp (f a)) : NeverShortOp (op >>= f) := by
  intro l e h
  cases hl : op l with
  | mk outcome l' =>
    cases outcome with
    | ok a =>
      rw [bind_of_ok hl] at h
      exact hf a l' e h
    | error failure =>
      rw [bind_of_error hl] at h
      obtain rfl := Except.error.inj h
      exact hop l e (congrArg Prod.fst hl)

/-- A loop is not short of funds if none of its steps is. -/
theorem foldlM {f : β → α → LedgerOp β} (hf : ∀ b a, NeverShortOp (f b a)) (items : List α) :
    ∀ b, NeverShortOp (items.foldlM f b) := by
  induction items with
  | nil => exact fun b => pure b
  | cons item rest ih => exact fun b => bind (hf b item) ih

end NeverShortOp

/-! ### Amounts and lists -/

namespace Ledger

variable {keys : KeyView} {chain : ChainView} {l : Ledger}

/-- The credit of an output is never short of funds. -/
theorem neverShort_outputCredit (filter : OwnershipFilter) (o : TxOut) :
    NeverShort (outputCredit keys filter o) := by
  unfold outputCredit
  split
  · exact .error rfl
  · exact .ok _

/-- The debit of an input is never short of funds. -/
theorem neverShort_inputDebit (l : Ledger) (filter : OwnershipFilter) (i : TxIn) :
    NeverShort (l.inputDebit keys filter i) := by
  unfold inputDebit
  split
  · exact .ok _
  · exact neverShort_outputCredit filter _

/-- An amount from scratch is never short of funds. -/
theorem neverShort_freshAmount (l : Ledger) (kind : AmountKind) (e : Entry)
    (part : OwnershipFilter) : NeverShort (l.freshAmount keys chain kind e part) := by
  have credit : NeverShort (recordCredit keys e.record part) :=
    .sumAmounts (neverShort_outputCredit part) _ _
  have unspent : NeverShort (l.unspentCredit keys chain e.record part) := by
    unfold unspentCredit
    exact .sumAmounts (fun o : OutPoint × TxOut => neverShort_outputCredit part o.2) _ _
  cases kind with
  | debit => exact .sumAmounts (neverShort_inputDebit l part) _ _
  | credit => exact credit
  | immature => exact credit
  | available => exact unspent

/-- A total goes by what is memoized of its parts and by what is computed of them. -/
theorem neverShort_total {compute : OwnershipFilter → Except LedgerError Amount}
    (hcompute : ∀ part, NeverShort (compute part)) (a : OwnedAmounts) (quantity : String)
    (filter : OwnershipFilter) : NeverShort (a.total quantity filter compute).1 := by
  have remembered (part : OwnershipFilter) : NeverShort (a.remember part (compute part)).1 := by
    rw [OwnedAmounts.remember_fst]
    cases a.part part with
    | none => exact hcompute part
    | some value => exact .ok value
  have added (ps : List OwnershipFilter) : ∀ total, NeverShort total →
      NeverShort (ps.foldl (fun total part => OwnedAmounts.addOutcome quantity total
        (a.remember part (compute part)).1) total) := by
    induction ps with
    | nil => exact fun _ h => h
    | cons part rest ih =>
      intro total h
      refine ih _ (h.bind fun total => (remembered part).bind fun value => ?_)
      split
      · exact .ok _
      · exact .error rfl
  rw [OwnedAmounts.total_fst]
  exact added _ _ (.ok 0)

/-- The amount of an entry is never short of funds. -/
theorem neverShort_amount (kind : AmountKind) (hash : Hash256) (filter : OwnershipFilter) :
    NeverShortOp (amount keys chain kind hash filter) := by
  intro l e h
  cases he : l.entry? hash with
  | none =>
    unfold amount at h
    rw [he] at h
    cases h
    rfl
  | some entry =>
    cases hhas : l.hasAmount chain kind entry with
    | false =>
      rw [amount_fst_of_not he hhas] at h
      cases h
    | true =>
      rw [amount_fst he hhas] at h
      have computed (part : OwnershipFilter) :
          NeverShort (l.freshAmount keys chain kind entry part) :=
        neverShort_freshAmount l kind entry part
      have total := neverShort_total computed (entry.memo.get kind) kind.quantity filter
      cases htotal : ((entry.memo.get kind).total kind.quantity filter
          (l.freshAmount keys chain kind entry)).1 with
      | ok value =>
        rw [htotal] at h
        cases h
      | error e' =>
        rw [htotal] at h
        obtain rfl : e' = e := by simpa [Except.mapError] using h
        exact total _ htotal

/-- To ask whether a record is from us is never short of funds. -/
theorem neverShort_isFromMe (hash : Hash256) (filter : OwnershipFilter) :
    NeverShortOp (isFromMe keys chain hash filter) :=
  .bind (neverShort_amount _ _ _) fun _ => .pure _

/-- To ask whether an entry is trusted is never short of funds. -/
theorem neverShort_isTrusted (hash : Hash256) : NeverShortOp (isTrusted keys chain hash) := by
  refine .bind .get fun l => ?_
  split
  · exact .refuse rfl
  dsimp only
  split
  · exact .pure _
  split
  · exact .pure _
  split
  · exact .pure _
  refine .bind (neverShort_isFromMe _ _) fun fromMe => ?_
  split <;> exact .pure _

/-- Listing the coins of an entry is never short of funds. -/
theorem neverShort_entryCoins (q : CoinQuery) (hash : Hash256) :
    NeverShortOp (entryCoins keys chain q hash) := by
  rw [entryCoins_eq]
  refine .bind .get fun l => ?_
  split
  · exact .pure _
  refine .bind ?_ fun heeded => ?_
  · unfold heeds
    split
    · exact neverShort_isTrusted hash
    · exact .pure _
  · split
    · exact .bind (neverShort_isFromMe _ _) fun _ => .pure _
    · exact .pure _

/-- Coins are listed, or an amount that bears on them cannot be given. -/
theorem neverShort_availableCoins (q : CoinQuery) :
    NeverShortOp (availableCoins keys chain q) := by
  refine .bind .get fun l => NeverShortOp.foldlM (fun coins hash => ?_) _ _
  exact .bind (neverShort_entryCoins q hash) fun _ => .pure _

end Ledger

/-! ### Picking -/

section
variable {σ : Type} [RandomSource σ] {target : Amount}

/-- A target may be refused, but not for want of funds. -/
theorem neverShort_checkTarget (target : Amount) : NeverShort (checkTarget target) := by
  unfold checkTarget
  split
  · exact .ok _
  · exact .error rfl

/-- The need for coinbases is told without being short of funds. -/
theorem CoinbaseNeed.neverShort_ofCoins (isProtected : Bool) (target : Amount)
    (without withThem : List Coin) :
    NeverShort (CoinbaseNeed.ofCoins isProtected target without withThem) := by
  unfold CoinbaseNeed.ofCoins
  dsimp only
  split
  · refine .bind (.sumValues _ _) fun sum => ?_
    split
    · exact .bind (.sumValues _ _) fun _ => .ok _
    · exact .ok _
  · exact .ok _

/-- Sorting out coins is never short of funds. -/
theorem CoinPool.neverShort_sortOut (target : Amount) :
    ∀ (coins : List Coin) (pool : CoinPool), NeverShort (CoinPool.sortOut target coins pool)
  | [], pool => .ok _
  | coin :: rest, pool => by
    unfold CoinPool.sortOut
    split
    · exact .error rfl
    split
    · exact .ok _
    split
    · split
      · exact .error rfl
      · exact neverShort_sortOut target rest _
    · exact neverShort_sortOut target rest _

/-- Covering a target is never short of funds: that there is no cover is an answer. -/
theorem neverShort_coverTarget (rule : DepthRule) (coins : List Coin) (rounds : Nat)
    (source : σ) : NeverShort (coverTarget target rule coins rounds source).1 := by
  have checked := neverShort_checkTarget target
  unfold coverTarget
  split
  · next e he =>
    rw [he] at checked
    exact .error (checked e rfl)
  dsimp only
  have sorted := CoinPool.neverShort_sortOut target
    ((RandomSource.shuffle coins source).1.filter rule.admits) .empty
  split
  · next e he =>
    rw [he] at sorted
    exact .error (sorted e rfl)
  · exact .ok _
  · exact .ok _

/-- And neither is trying one rule after the other. -/
theorem neverShort_coverByRules (coins : List Coin) (rounds : Nat) (rules : List DepthRule) :
    ∀ source : σ, NeverShort (coverByRules target coins rounds rules source) := by
  induction rules with
  | nil => exact fun _ => .ok _
  | cons rule rules ih =>
    intro source
    have covered : NeverShort (coverTarget target rule coins rounds source).1 :=
      neverShort_coverTarget rule coins rounds source
    unfold coverByRules
    split
    · next e _ he =>
      rw [he] at covered
      exact .error (covered e rfl)
    · exact .ok _
    · exact ih _

namespace Ledger

/-- And neither is picking coins besides those that are preset. -/
theorem neverShort_pickWithPreset (settings : Settings) (preset coins : List Coin) (source : σ) :
    NeverShort (pickWithPreset settings target preset coins source) := by
  unfold pickWithPreset
  refine .bind (.sumValues _ _) fun presetValue => ?_
  dsimp only
  split
  -- The rest is the same, whether the others had to cover anything or not.
  case' isTrue => refine .bind (.ok _) fun picked => ?_
  case' isFalse => refine .bind (neverShort_coverByRules _ _ _ _) fun picked => ?_
  all_goals
    cases picked with
    | none => exact .ok _
    | some picked => exact .bind (.sumValues _ _) fun _ => .ok _

/-- Whether the coins suffice is told by what is picked, not by an error. -/
theorem neverShort_pickCoins (l : Ledger) (chain : ChainView) (control : Option CoinControl)
    (coins : List Coin) (source : σ) :
    NeverShort (l.pickCoins chain target control coins source) := by
  unfold pickCoins
  split
  · exact .bind (.sumValues _ _) fun _ => .ok _
  split
  · exact neverShort_pickWithPreset _ _ _ _
  · refine .bind (.mapM (fun outpoint => ?_) _) fun _ => neverShort_pickWithPreset _ _ _ _
    unfold preselected
    split
    · exact .error rfl
    · split
      · exact .error rfl
      · exact .ok _

/-! ## What is reported -/

variable {keys : KeyView} {chain : ChainView} {l : Ledger} {control : Option CoinControl}
  {source : σ} {need : CoinbaseNeed}

/-- What is reported at the end is reported because everything before succeeds. -/
theorem exists_of_reportedNeed_bind {α : Type} {op : LedgerOp α} {f : α → LedgerOp CoinSelection}
    (hop : NeverShortOp op) (h : reportedNeed ((op >>= f) l).1 = some need) :
    ∃ a l', op l = (.ok a, l') ∧ reportedNeed (f a l').1 = some need := by
  cases hl : op l with
  | mk outcome l' =>
    cases outcome with
    | ok a => exact ⟨a, l', rfl, by rwa [bind_of_ok hl] at h⟩
    | error failure =>
      rw [bind_of_error hl] at h
      cases failure with
      | fault fault => cases h
      | error e => exact nomatch (hop l e (congrArg Prod.fst hl)).symm.trans h

/-- What is reported goes by what is listed at the start, with coinbases and without. -/
theorem exists_need_of_reportedNeed
    (h : reportedNeed (selectCoins keys chain target control source l).1 = some need) :
    ∃ all, (availableCoins keys chain ⟨true, false, true, control⟩ l).1 = .ok all ∧
      (availableCoins keys chain ⟨true, false, false, control⟩ l).1 =
        .ok (all.filter fun coin => !coin.isCoinbase) ∧
      CoinbaseNeed.ofCoins l.settings.coinbaseMustBeProtected target
        (all.filter fun coin => !coin.isCoinbase) all = .ok need := by
  unfold selectCoins at h
  obtain ⟨_, l₀, hchecked, h⟩ :=
    exists_of_reportedNeed_bind (.ask fun _ => neverShort_checkTarget target) h
  obtain ⟨-, hl₀⟩ := eq_of_ask hchecked
  rw [hl₀] at h
  obtain ⟨without, l₁, hwithout, h⟩ :=
    exists_of_reportedNeed_bind (neverShort_availableCoins _) h
  obtain ⟨all, l₂, hall, h⟩ := exists_of_reportedNeed_bind (neverShort_availableCoins _) h
  have same₁ : SameAnswers keys chain l l₁ := same_of_eq (steady_availableCoins _) hwithout
  have same₂ := same₁.trans (same_of_eq (steady_availableCoins _) hall)
  have hall := ((steady_availableCoins _).answer same₁).symm.trans (congrArg Prod.fst hall)
  have hwithout := congrArg Prod.fst hwithout
  have apart := availableCoins_withoutCoinbase (q := ⟨true, false, true, control⟩) rfl hall
  obtain rfl := Except.ok.inj (hwithout.symm.trans apart)
  rw [bind_of_ok (show (get : LedgerOp Ledger) l₂ = (.ok l₂, l₂) from rfl)] at h
  obtain ⟨need', l₃, hneed, h⟩ :=
    exists_of_reportedNeed_bind (.ask fun _ => CoinbaseNeed.neverShort_ofCoins _ _ _ _) h
  obtain ⟨hneed, -⟩ := eq_of_ask hneed
  rw [settings_of_markDirty_eq same₂.markDirty_eq] at hneed
  obtain ⟨picked, l₄, -, h⟩ :=
    exists_of_reportedNeed_bind (.ask fun _ => neverShort_pickCoins _ _ _ _ _) h
  refine ⟨all, hall, apart, ?_⟩
  -- The need is reported with the coins that are picked, or with the refusal.
  cases picked with
  | some pick =>
    obtain rfl := Option.some.inj h
    exact hneed
  | none =>
    obtain rfl := Option.some.inj h
    exact hneed

/-- No coin of a listing that leaves out outputs of value zero is worth less than nothing. -/
theorem pos_of_mem_availableCoins {q : CoinQuery} (hq : q.includeZero = false) {coins : List Coin}
    (h : (availableCoins keys chain q l).1 = .ok coins) {coin : Coin} (hc : coin ∈ coins) :
    0 < coin.value.toInt := by
  obtain ⟨hash, e, -, -, -, -, o, -, hcoin⟩ := exists_of_mem_availableCoins h hc
  obtain ⟨⟨-, -, -, value, -⟩, hcoin⟩ := coin?_eq_some_iff.1 hcoin
  rw [hcoin]
  exact Int64.lt_iff_toInt_lt.1 (value.resolve_right (by simp [hq]))

end Ledger

/-- The total of the coins that we can sign for is exact. -/
theorem toInt_of_spendableTotal {coins : List Coin} {sum : Amount}
    (h : spendableTotal coins = .ok sum) : sum.toInt = worth (coins.filter (·.spendable)) := by
  unfold spendableTotal sumValues at h
  split at h
  · next hsum =>
    obtain rfl := Except.ok.inj h
    exact (Amount.sumInRange_eq_some_iff.1 hsum).2.2
  · cases h

/-- When coinbases are found to be needed. -/
theorem CoinbaseNeed.needed_of_ofCoins {isProtected : Bool} {without withThem : List Coin}
    {need : CoinbaseNeed}
    (h : CoinbaseNeed.ofCoins isProtected target without withThem = .ok need) :
    need.needed = true ↔ isProtected = true ∧ without.length < withThem.length ∧
      worth (without.filter (·.spendable)) ≤ target.toInt ∧
      target.toInt ≤ worth (withThem.filter (·.spendable)) := by
  unfold CoinbaseNeed.ofCoins at h
  dsimp only at h
  split at h
  · next hlists =>
    simp only [Bool.and_eq_true, decide_eq_true_eq] at hlists
    obtain ⟨few, hfew, h⟩ := exists_of_bind_eq_ok h
    rw [← toInt_of_spendableTotal hfew, ← Int64.le_iff_toInt_le]
    split at h
    · next hle =>
      obtain ⟨most, hmost, h⟩ := exists_of_bind_eq_ok h
      obtain rfl := Except.ok.inj h
      rw [← toInt_of_spendableTotal hmost, ← Int64.le_iff_toInt_le]
      simp [hlists, hle]
    · next hnot =>
      obtain rfl := Except.ok.inj h
      simp [hnot]
  · next hlists =>
    obtain rfl := Except.ok.inj h
    simp only [Bool.and_eq_true, decide_eq_true_eq] at hlists
    exact ⟨nofun, fun ⟨hprotected, hlt, _⟩ => absurd ⟨hprotected, hlt⟩ hlists⟩

/-- Fewer coins of positive value are worth no more. -/
theorem worth_le_of_sublist {coins coins' : List Coin} (hsub : coins.Sublist coins')
    (hpos : ∀ coin ∈ coins', 0 < coin.value.toInt) : worth coins ≤ worth coins' := by
  refine ((hsub.map _).map _).sum_le_sum fun value hvalue => ?_
  obtain ⟨amount, hamount, rfl⟩ := List.mem_map.1 hvalue
  obtain ⟨coin, hcoin, rfl⟩ := List.mem_map.1 hamount
  exact (hpos coin hcoin).le

end

namespace Ledger

variable {σ : Type} [RandomSource σ] {keys : KeyView} {chain : ChainView} {l : Ledger}
  {target : Amount} {control : Option CoinControl} {source : σ} {need : CoinbaseNeed}

/-- When coinbases are reported as needed: if they are protected, one of them is listed, and the
target lies between what the coins we can sign for amount to without coinbases and with them. They
are needed for a target that lies above the first of these sums. So the report is right unless the
coins without coinbases amount to just the target. -/
theorem reportedNeed_iff
    (h : reportedNeed (selectCoins keys chain target control source l).1 = some need) :
    ∃ without all, (availableCoins keys chain ⟨true, false, false, control⟩ l).1 = .ok without ∧
      (availableCoins keys chain ⟨true, false, true, control⟩ l).1 = .ok all ∧
      let isProtected := l.settings.coinbaseMustBeProtected = true
      let isListed := ∃ coin ∈ all, coin.isCoinbase = true
      let few := worth (without.filter (·.spendable))
      let most := worth (all.filter (·.spendable))
      (need.needed = true ↔
        isProtected ∧ isListed ∧ few ≤ target.toInt ∧ target.toInt ≤ most) ∧
      ((need.needed = true ↔ isProtected ∧ few < target.toInt ∧ target.toInt ≤ most) ↔
        ¬(isProtected ∧ isListed ∧ few = target.toInt)) := by
  obtain ⟨all, hall, hwithout, hneed⟩ := exists_need_of_reportedNeed h
  refine ⟨_, all, hwithout, hall, ?_⟩
  intro isProtected isListed few most
  have listed : (all.filter fun coin => !coin.isCoinbase).length < all.length ↔ isListed := by
    rw [List.length_filter_lt_length_iff_exists]
    simp [isListed]
  have reported : need.needed = true ↔
      isProtected ∧ isListed ∧ few ≤ target.toInt ∧ target.toInt ≤ most := by
    rw [CoinbaseNeed.needed_of_ofCoins hneed, listed]
  have ordered : few ≤ most := by
    refine worth_le_of_sublist (List.filter_sublist.filter _) fun coin hcoin => ?_
    exact pos_of_mem_availableCoins rfl hall (List.mem_filter.1 hcoin).1
  -- Where no coinbase is listed, the lists are the same.
  have same (hnone : ¬isListed) : few = most := by
    have kept : (all.filter fun coin => !coin.isCoinbase) = all :=
      List.filter_eq_self.2 fun coin hcoin => by
        have := fun hbase => hnone ⟨coin, hcoin, hbase⟩
        simpa using this
    exact congrArg (fun coins => worth (coins.filter (·.spendable))) kept
  refine ⟨reported, ?_⟩
  rw [reported]
  by_cases hlisted : isListed
  · constructor
    · rintro right ⟨hprotected, -, heq⟩
      have := (right.1 ⟨hprotected, hlisted, by omega, by omega⟩).2.1
      omega
    · intro hbut
      constructor
      · rintro ⟨hprotected, -, hle, hmost⟩
        have : few ≠ target.toInt := fun heq => hbut ⟨hprotected, hlisted, heq⟩
        exact ⟨hprotected, by omega, hmost⟩
      · rintro ⟨hprotected, hlt, hmost⟩
        exact ⟨hprotected, hlisted, by omega, hmost⟩
  · have := same hlisted
    refine iff_of_true ⟨fun h => absurd h.2.1 hlisted, fun ⟨_, hlt, hmost⟩ => ?_⟩
      fun h => hlisted h.2.1
    omega

/-- A ledger that has seen, in the only block of the chain, a transaction and a coinbase that pay
us. No coinbase has to wait. -/
def paidBoth : Simulation.Node :=
  ((Simulation.Node.start { Settings.default with coinbaseMaturity := 0 }).connect "both"
    [.transaction paysTwice, .transaction payment]).2.2

/-- The coins of the transaction amount to 1100. For this target they suffice, and the coinbase is
reported as needed. -/
theorem reportedNeed_iff_just :
    let list (coinbases : Bool) := (availableCoins paidBoth.keys.view paidBoth.chain.view
      ⟨true, false, coinbases, none⟩ paidBoth.ledger).1
    reportedNeed (selectCoins paidBoth.keys.view paidBoth.chain.view 1100 none (⟨7⟩ : SplitMix)
        paidBoth.ledger).1 = some ⟨false, true⟩ ∧
      ∃ without all, list false = .ok without ∧ list true = .ok all ∧
        worth (without.filter (·.spendable)) = 1100 ∧ ∃ coin ∈ all, coin.isCoinbase = true := by
  intro list
  have computed : reportedNeed (selectCoins paidBoth.keys.view paidBoth.chain.view 1100 none
        (⟨7⟩ : SplitMix) paidBoth.ledger).1 = some ⟨false, true⟩ ∧
      (list false).map (fun coins => worth (coins.filter (·.spendable))) = .ok 1100 := by
    decide +kernel
  obtain ⟨reported, amount⟩ := computed
  obtain ⟨without, all, hwithout, hall, needed, -⟩ := reportedNeed_iff reported
  refine ⟨reported, without, all, hwithout, hall, ?_, (needed.1 rfl).2.1⟩
  rw [show list false = _ from hwithout] at amount
  exact Except.ok.inj amount

end Ledger
end ShieldedLedger
