import ShieldedLedger.Proofs.Selection.Cover
import ShieldedLedger.Proofs.Selection.Listing
import ShieldedLedger.Proofs.TakingIn
import ShieldedLedger.Random.SplitMix
import ShieldedLedger.Simulation.Node

/-!
# Selection succeeds if the funds suffice

Without anything asked by the caller a selection tries the rules on confirmations in order, each on
all listed coins. The last rule admits every listed coin that we can sign for: only trusted entries
are listed, so an unconfirmed coin is our own change, and its being listed means that the rule for
it is in force (`exists_rule_admits`). So if that rule leaves the target uncovered, the coins that
can be spent fall short of it, and the selection tells so; otherwise it succeeds
(`Ledger.selectCoins_outcomes`).
-/

namespace ShieldedLedger

variable {σ : Type} [RandomSource σ] {target : Amount} {coins : List Coin}

/-! ## Trying the rules -/

/-- The coins that a rule admits are spendable. -/
theorem filter_admits_sublist (coins : List Coin) (rule : DepthRule) :
    (coins.filter rule.admits).Sublist (coins.filter (·.spendable)) :=
  List.monotone_filter_right coins fun _ h => (Bool.and_eq_true_iff.1 h).1

/-- The rules are tried until one is found whose coins cover the target. -/
theorem coverByRules_outcomes (htarget : target.inRange = true)
    (hpayable : Payable (coins.filter (·.spendable))) (rounds : Nat) :
    ∀ (rules : List DepthRule) (source : σ),
      (coverByRules target coins rounds rules source = .ok none ∧
        ∀ rule ∈ rules, worth (coins.filter rule.admits) < target.toInt) ∨
      ∃ pick, coverByRules target coins rounds rules source = .ok (some pick) ∧
        pick.Pays target (coins.filter (·.spendable))
  | [], _ => .inl ⟨rfl, nofun⟩
  | rule :: rules, source => by
    have sub := (filter_admits_sublist coins rule).subperm
    obtain ⟨picked, hok, settles⟩ :=
      coverTarget_outcomes htarget (hpayable.of_subperm sub) rounds source
    unfold coverByRules
    generalize coverTarget target rule coins rounds source = covered at hok ⊢
    obtain ⟨_, source⟩ := covered
    obtain rfl : _ = _ := hok
    cases picked with
    | some pick => exact .inr ⟨pick, rfl, settles.toPays.of_subperm sub⟩
    | none =>
      refine (coverByRules_outcomes htarget hpayable rounds rules source).imp_left ?_
      exact fun ⟨hnone, short⟩ => ⟨hnone, List.forall_mem_cons.2 ⟨settles, short⟩⟩

/-- To add the value of no coins changes nothing. -/
theorem sumValues_zero (quantity : String) {value : Amount} (h : value.inRange = true) :
    sumValues quantity [value, 0] = .ok value := by
  have total : Amount.total [value, 0] = value.toInt := Int.add_zero _
  have sum : Amount.sumInRange [value, 0] = some value := by
    refine Amount.sumInRange_eq_some_iff.2 ⟨?_, ?_, total.symm⟩
    · exact List.forall_mem_cons.2 ⟨h, List.forall_mem_singleton.2 rfl⟩
    · rw [total]
      exact (Amount.inRange_iff.1 h).2
  unfold sumValues
  rw [sum]

/-- Where nothing is preselected, all of the target is left to the rules. -/
theorem pickWithPreset_nil (settings : Settings) (target : Amount) (coins : List Coin)
    (source : σ) : Ledger.pickWithPreset settings target [] coins source =
      (if target ≤ 0 then .ok (some ⟨[], 0⟩)
        else coverByRules target coins settings.selectionIterations settings.depthRules
          source).bind fun
        | none => .ok none
        | some picked => (sumValues "selected coins" [picked.value, 0]).map fun value =>
          some ⟨picked.coins, value⟩ := by
  unfold Ledger.pickWithPreset
  rw [show sumValues "preselected coins" (([] : List Coin).map (·.value)) = .ok 0 from rfl]
  dsimp only [Bind.bind, Except.bind]
  rw [Int64.sub_zero]
  split
  · rfl
  · cases coverByRules target coins settings.selectionIterations settings.depthRules source with
    | error e => rfl
    | ok picked =>
      cases picked with
      | none => rfl
      | some picked =>
        dsimp only
        rw [List.append_nil]
        rfl

/-- So what the rules give is what is picked. A target of zero takes no coins. -/
theorem pickWithPreset_outcomes (settings : Settings) (htarget : target.inRange = true)
    (hpayable : Payable (coins.filter (·.spendable))) (source : σ) :
    (Ledger.pickWithPreset settings target [] coins source = .ok none ∧
      ∀ rule ∈ settings.depthRules, worth (coins.filter rule.admits) < target.toInt) ∨
    ∃ pick, Ledger.pickWithPreset settings target [] coins source = .ok (some pick) ∧
      pick.Pays target (coins.filter (·.spendable)) := by
  rw [pickWithPreset_nil]
  have finished {pick : CoinPick} (pays : pick.Pays target (coins.filter (·.spendable))) :
      (sumValues "selected coins" [pick.value, 0]).map (fun value =>
        some (⟨pick.coins, value⟩ : CoinPick)) = .ok (some pick) := by
    have payable := hpayable.of_subperm pays.coins
    rw [sumValues_zero]
    · rfl
    · rw [Amount.inRange_iff, pays.value]
      exact ⟨payable.worth_nonneg, payable.worth_le⟩
  split
  · next hzero =>
    have pays : CoinPick.Pays target (coins.filter (·.spendable)) ⟨[], 0⟩ :=
      ⟨List.nil_subperm, rfl, Int64.le_iff_toInt_le.1 hzero⟩
    exact .inr ⟨_, finished pays, pays⟩
  · rcases coverByRules_outcomes htarget hpayable settings.selectionIterations settings.depthRules
      source with ⟨hnone, short⟩ | ⟨pick, hok, pays⟩
    · rw [hnone]
      exact .inl ⟨rfl, short⟩
    · rw [hok]
      exact .inr ⟨pick, finished pays, pays⟩

/-! ## What bears on a selection -/

/-- The last of the rules in force admits every coin that we can sign for, if those that are not
confirmed are our own change, and listed only where that may be spent. -/
theorem exists_rule_admits (settings : Settings) (hcoins : ∀ coin ∈ coins, 1 ≤ coin.depth ∨
      coin.depth = 0 ∧ coin.fromMe = true ∧ settings.spendZeroConfChange = true) :
    ∃ rule ∈ settings.depthRules, coins.filter rule.admits = coins.filter (·.spendable) := by
  have admitting (rule : DepthRule) (hrule : ∀ coin ∈ coins,
      (if coin.fromMe then rule.mine else rule.theirs) ≤ coin.depth) :
      coins.filter rule.admits = coins.filter (·.spendable) := by
    refine List.filter_congr fun coin hcoin => ?_
    unfold DepthRule.admits
    rw [decide_eq_true (hrule coin hcoin), Bool.and_true]
  unfold Settings.depthRules
  cases hchange : settings.spendZeroConfChange with
  | true =>
    refine ⟨⟨0, 1⟩, by simp, admitting _ fun coin hcoin => ?_⟩
    dsimp only
    rcases hcoins coin hcoin with h | ⟨h, hown, -⟩
    · split <;> omega
    · rw [hown, if_pos rfl]
      omega
  | false =>
    refine ⟨⟨1, 1⟩, by simp, admitting _ fun coin hcoin => ?_⟩
    rcases hcoins coin hcoin with h | ⟨-, -, h⟩
    · split <;> exact h
    · exact nomatch h.symm.trans hchange

/-- How coinbases bear on a selection can be told. -/
theorem exists_coinbaseNeed (isProtected : Bool) (target : Amount) {without withThem : List Coin}
    (hwithout : Payable (without.filter (·.spendable)))
    (hwith : Payable (withThem.filter (·.spendable))) :
    ∃ need, CoinbaseNeed.ofCoins isProtected target without withThem = .ok need := by
  obtain ⟨sum, hsum, -⟩ := hwithout.sumValues "spendable coins"
  obtain ⟨sum', hsum', -⟩ := hwith.sumValues "spendable coins"
  unfold CoinbaseNeed.ofCoins spendableTotal
  rw [hsum, hsum']
  dsimp only [Bind.bind, Except.bind]
  split
  · split <;> exact ⟨_, rfl⟩
  · exact ⟨_, rfl⟩

/-! ## Selecting -/

namespace Ledger

variable {keys : KeyView} {chain : ChainView} {l : Ledger} {all without : List Coin}
  {need : CoinbaseNeed}

/-- A selection goes by what the ledger lists at the start. -/
theorem selectCoins_fst (htarget : target.inRange = true) {source : σ} {picked : Option CoinPick}
    (hwithout : (availableCoins keys chain ⟨true, false, false, none⟩ l).1 = .ok without)
    (hall : (availableCoins keys chain ⟨true, false, true, none⟩ l).1 = .ok all)
    (hneed : CoinbaseNeed.ofCoins l.settings.coinbaseMustBeProtected target without all = .ok need)
    (hpicked : pickWithPreset l.settings target []
      (if l.settings.coinbaseMustBeProtected then without else all) source = .ok picked) :
    (selectCoins keys chain target none source l).1 =
      picked.elim (.error (.error (.insufficientFunds target need.only need.needed)))
        fun pick => .ok ⟨pick, need⟩ := by
  have checked : checkTarget target = .ok () := if_pos htarget
  -- A listing fills memos, after which the other lists what it would have listed before.
  have steady (q : CoinQuery) : Steady keys chain (availableCoins keys chain q) :=
    steady_availableCoins q
  have same₁ := (steady ⟨true, false, false, none⟩).same l
  have first := eq_of_parts hwithout rfl
  generalize (availableCoins keys chain ⟨true, false, false, none⟩ l).2 = l₁ at same₁ first
  have same₂ := same₁.trans ((steady ⟨true, false, true, none⟩).same l₁)
  have second := eq_of_parts (((steady ⟨true, false, true, none⟩).answer same₁).trans hall) rfl
  generalize (availableCoins keys chain ⟨true, false, true, none⟩ l₁).2 = l₂ at same₂ second
  rw [← settings_of_markDirty_eq same₂.markDirty_eq] at hneed hpicked
  unfold selectCoins
  rw [bind_of_ok (ask_of_ok checked), bind_of_ok first, bind_of_ok second,
    bind_of_ok (show (get : LedgerOp Ledger) l₂ = (.ok l₂, l₂) from rfl)]
  dsimp only
  rw [bind_of_ok (ask_of_ok hneed), bind_of_ok (ask_of_ok hpicked)]
  cases picked <;> rfl

/-- The coins that a selection may take are listed if all coins are, and they add up if all do. -/
theorem exists_selectable
    (hall : (availableCoins keys chain ⟨true, false, true, none⟩ l).1 = .ok all)
    (hpayable : Payable all) (isProtected : Bool) : ∃ without,
      (availableCoins keys chain ⟨true, false, false, none⟩ l).1 = .ok without ∧
      Payable (without.filter (·.spendable)) ∧
      (availableCoins keys chain ⟨true, false, !isProtected, none⟩ l).1 =
        .ok (if isProtected then without else all) ∧
      Payable ((if isProtected then without else all).filter (·.spendable)) := by
  have hwithout := availableCoins_withoutCoinbase (q := ⟨true, false, true, none⟩) rfl hall
  have sub : (all.filter fun coin => !coin.isCoinbase).Subperm all := List.filter_sublist.subperm
  have payable {coins : List Coin} (hsub : coins.Subperm all) :
      Payable (coins.filter (·.spendable)) :=
    hpayable.of_subperm (List.filter_sublist.subperm.trans hsub)
  refine ⟨_, hwithout, payable sub, ?_⟩
  cases isProtected with
  | true => exact ⟨hwithout, payable sub⟩
  | false => exact ⟨hall, payable (List.Subperm.refl all)⟩

/-- Where what can be listed adds up in range, a selection succeeds if the coins that can be spent
reach the target. It then takes some of them, none more often than it is listed, has the value of
what it takes, and reaches the target; and if the ledger finds its entries by their hashes, no
output is taken twice. If the coins fall short of the target, the selection tells that the funds do
not suffice. Nothing else makes it fail. -/
theorem selectCoins_outcomes (htarget : target.inRange = true) (source : σ)
    (hall : (availableCoins keys chain ⟨true, false, true, none⟩ l).1 = .ok all)
    (hpayable : Payable all) :
    ∃ coins, (availableCoins keys chain
        ⟨true, false, !l.settings.coinbaseMustBeProtected, none⟩ l).1 = .ok coins ∧
      (target.toInt ≤ worth (coins.filter (·.spendable)) → ∃ selection,
        (selectCoins keys chain target none source l).1 = .ok selection ∧
        selection.pick.Pays target (coins.filter (·.spendable)) ∧
        ((∀ {hash e}, l.entry? hash = some e →
            e.hash = hash ∧ e.record.outputs.length ≤ UInt32.size) →
          (selection.pick.coins.map (·.outpoint)).Nodup)) ∧
      (worth (coins.filter (·.spendable)) < target.toInt → ∃ only needed,
        (selectCoins keys chain target none source l).1 =
          .error (.error (.insufficientFunds target only needed))) := by
  obtain ⟨without, hwithout, hpayable', hcoins, hselectable⟩ :=
    exists_selectable hall hpayable l.settings.coinbaseMustBeProtected
  have spendable : Payable (all.filter (·.spendable)) :=
    hpayable.of_subperm List.filter_sublist.subperm
  obtain ⟨need, hneed⟩ := exists_coinbaseNeed l.settings.coinbaseMustBeProtected target hpayable'
    spendable
  have selected {picked} (h : pickWithPreset l.settings target [] _ source = .ok picked) :=
    selectCoins_fst htarget hwithout hall hneed h
  generalize (if l.settings.coinbaseMustBeProtected then without else all) = coins
    at hcoins hselectable selected
  refine ⟨coins, hcoins, ?_⟩
  rcases pickWithPreset_outcomes l.settings htarget hselectable source with
    ⟨hnone, short⟩ | ⟨pick, hpick, pays⟩
  · obtain ⟨rule, hrule, admits⟩ :=
      exists_rule_admits l.settings fun _ => trusted_of_mem_availableCoins rfl hcoins
    have short := admits ▸ short rule hrule
    exact ⟨fun h => absurd short (Int.not_lt.2 h), fun _ => ⟨_, _, selected hnone⟩⟩
  · have enough := Int.le_trans pays.reaches (Int.le_trans (Int.le_of_eq pays.value)
      (worth_le_of_subperm pays.coins hselectable.inRange))
    refine ⟨fun _ => ⟨_, selected hpick, pays, fun hhash => ?_⟩,
      fun h => absurd h (Int.not_lt.2 enough)⟩
    obtain ⟨between, hperm, hsub⟩ := pays.coins.trans List.filter_sublist.subperm
    refine ((hperm.map _).nodup_iff).1 ?_
    exact (hsub.map _).nodup (nodup_availableCoins hhash hcoins)

/-- A transaction with two outputs of ours. -/
def paysTwice : Transaction :=
  { TxBody.blank with
    inputs := [⟨⟨Bytes.filled 32 0xc5, 0⟩, Simulation.unlockScript, 0⟩]
    outputs := [Simulation.payment Simulation.ourTag 600,
      Simulation.payment Simulation.ourTag 500] }.freeze

/-- A ledger that has seen it in the only block of the chain. -/
def funded : Simulation.Node :=
  ((Simulation.Node.start Settings.default).connect "paid" [.transaction paysTwice]).2.2

/-- The coins that its outputs make. -/
def fundedCoins : List Coin :=
  [⟨⟨paysTwice.hash, 0⟩, 600, 1, true, false, false⟩,
    ⟨⟨paysTwice.hash, 1⟩, 500, 1, true, false, false⟩]

/-- What is listed of it, with coinbases and without, and what it holds. -/
theorem funded_computed :
    let list (q : CoinQuery) :=
      (availableCoins funded.keys.view funded.chain.view q funded.ledger).1
    list ⟨true, false, true, none⟩ = .ok fundedCoins ∧
      list ⟨true, false, !funded.ledger.settings.coinbaseMustBeProtected, none⟩ =
        .ok fundedCoins ∧
      ∀ entry ∈ funded.ledger.entries.toList,
        entry.2.hash = entry.1 ∧ entry.2.record.outputs.length ≤ UInt32.size := by
  decide +kernel

/-- Its coins are picked for a target that takes both, and do not suffice for one above their
sum. -/
theorem selectCoins_outcomes_funded :
    let select (target : Amount) := (selectCoins funded.keys.view funded.chain.view target none
      (⟨7⟩ : SplitMix) funded.ledger).1
    (availableCoins funded.keys.view funded.chain.view ⟨true, false, true, none⟩
        funded.ledger).1 = .ok fundedCoins ∧ Payable fundedCoins ∧
      (∃ selection, select 800 = .ok selection ∧ selection.pick.Pays 800 fundedCoins ∧
        (selection.pick.coins.map (·.outpoint)).Nodup) ∧
      ∃ only needed, select 2000 = .error (.error (.insufficientFunds 2000 only needed)) := by
  intro select
  obtain ⟨hall, hselectable, checked⟩ := funded_computed
  have hpayable : Payable fundedCoins := ⟨by decide +kernel, by decide +kernel⟩
  have keyed {hash : Hash256} {e : Entry} (he : funded.ledger.entry? hash = some e) :
      e.hash = hash ∧ e.record.outputs.length ≤ UInt32.size :=
    checked _ (SortedMap.mem_toList_iff.2 he)
  have spendable : fundedCoins.filter (·.spendable) = fundedCoins := rfl
  have outcomes {target : Amount} (htarget : target.inRange = true) :=
    selectCoins_outcomes htarget (⟨7⟩ : SplitMix) hall hpayable
  obtain ⟨_, hcoins, enough, -⟩ := outcomes (show (800 : Amount).inRange = true from rfl)
  obtain rfl := Except.ok.inj (hcoins.symm.trans hselectable)
  obtain ⟨_, hcoins', -, short⟩ := outcomes (show (2000 : Amount).inRange = true from rfl)
  obtain rfl := Except.ok.inj (hcoins'.symm.trans hselectable)
  rw [spendable] at enough short
  obtain ⟨selection, hok, pays, distinct⟩ := enough (by decide +kernel)
  exact ⟨hall, hpayable, ⟨selection, hok, pays, distinct keyed⟩, short (by decide +kernel)⟩

end Ledger
end ShieldedLedger
