import Mathlib.Data.List.Perm.Subperm
import Mathlib.Data.List.Sublists
import ShieldedLedger.Proofs.Selection.Subset
import ShieldedLedger.Random.SplitMix
import ShieldedLedger.Wallet.Selection.Cover

/-!
# Covering a target never loses what would reach it

Whatever is drawn, `coverTarget` answers a pick that covers the target (`CoinPick.Covers`), and
answers none only if the eligible coins fall short of it. Where their values and their sum are valid
amounts it does not fail (`coverTarget_outcomes`), and what it picks is worth just what it says
(`coverTarget_complete`). It leaves change of less than a cent only if all eligible coins together
leave no more, and none if a coin has just the target's value (`coverTarget_avoids_dust`).

The exits are told apart by how the eligible coins are sorted out (`CoinPool.Sorts`): the pool holds
the coins below the target plus a cent, with their sum, and one of the others if there is any. So if
the pool falls short of the target and no larger coin is known, all eligible coins fall short.
-/

namespace ShieldedLedger

/-! ## Shuffling -/

namespace RandomSource

variable {α σ : Type} [RandomSource σ]

/-- Settling items changes nothing but their order. -/
theorem settleFrom_perm (last : Nat) (items : Array α) (s : σ) :
    (settleFrom last items s).1.Perm items := by
  induction last generalizing items s with
  | zero => exact .rfl
  | succ last ih =>
    refine (ih _ _).trans ?_
    rw [Array.swapIfInBounds_def]
    split
    · split
      · exact Array.swap_perm _ _
      · exact .rfl
    · exact .rfl

/-- A shuffle drops nothing and adds nothing. -/
theorem shuffle_perm (items : List α) (s : σ) : (shuffle items s).1.Perm items :=
  (settleFrom_perm _ items.toArray s).toList

end RandomSource

/-! ## What coins are worth -/

/-- The sum of the values of coins. -/
def worth (coins : List Coin) : Int := Amount.total (coins.map (·.value))

/-- The values of the coins are valid amounts, and so is their sum. -/
structure Payable (coins : List Coin) : Prop where
  inRange : ∀ coin ∈ coins, coin.value.inRange = true
  worth_le : worth coins ≤ maxMoney.toInt

section
variable {coins coins' : List Coin}

/-- What coins are worth does not depend on their order. -/
theorem worth_perm (h : coins.Perm coins') : worth coins = worth coins' :=
  Amount.total_perm (h.map _)

/-- Two lists of coins are together worth what they are worth each. -/
theorem worth_append (coins coins' : List Coin) :
    worth (coins ++ coins') = worth coins + worth coins' := by
  unfold worth
  rw [List.map_append, Amount.total_append]

/-- One coin is worth its value. -/
theorem worth_singleton (coin : Coin) : worth [coin] = coin.value.toInt :=
  Int.add_zero _

/-- Some of the coins are worth no more than all of them, if their values are valid amounts. -/
theorem worth_le_of_subperm (hsub : coins.Subperm coins')
    (h : ∀ coin ∈ coins', coin.value.inRange = true) : worth coins ≤ worth coins' := by
  obtain ⟨between, hperm, hsub⟩ := hsub
  rw [← worth_perm hperm]
  refine Amount.total_le_of_sublist (hsub.map _) fun v hv => ?_
  obtain ⟨coin, hcoin, rfl⟩ := List.mem_map.1 hv
  exact h coin hcoin

/-- Some of the coins can be added up if all of them can. -/
theorem Payable.of_subperm (h : Payable coins') (hsub : coins.Subperm coins') : Payable coins :=
  ⟨fun coin hcoin => h.inRange coin (hsub.subset hcoin),
    Int.le_trans (worth_le_of_subperm hsub h.inRange) h.worth_le⟩

/-- The values of coins that can be added up are valid amounts. -/
theorem Payable.values_inRange (h : Payable coins) :
    ∀ v ∈ coins.map (·.value), v.inRange = true := by
  intro v hv
  obtain ⟨coin, hcoin, rfl⟩ := List.mem_map.1 hv
  exact h.inRange coin hcoin

/-- Coins that can be added up are not worth less than nothing. -/
theorem Payable.worth_nonneg (h : Payable coins) : 0 ≤ worth coins :=
  Amount.total_nonneg h.values_inRange

/-- Such coins can be added up. -/
theorem Payable.sumValues (h : Payable coins) (quantity : String) :
    ∃ sum : Amount, sumValues quantity (coins.map (·.value)) = .ok sum ∧
      sum.toInt = worth coins := by
  have nonneg := h.worth_nonneg
  have most : worth coins ≤ 2100000000000000 := h.worth_le
  have exact : (Int64.ofInt (worth coins)).toInt = worth coins :=
    Int64.toInt_ofInt_of_le (by omega) (by omega)
  have added := Amount.sumInRange_eq_some_iff.2 ⟨h.values_inRange, most, exact⟩
  refine ⟨_, ?_, exact⟩
  unfold ShieldedLedger.sumValues
  rw [added]

end

/-! ## What covers a target -/

/-- A pick from the eligible coins that reaches the target. It takes no coin more often than there
is one, and has the value of its coins. -/
structure CoinPick.Pays (target : Amount) (eligible : List Coin) (pick : CoinPick) : Prop where
  coins : pick.coins.Subperm eligible
  value : pick.value.toInt = worth pick.coins
  reaches : target.toInt ≤ pick.value.toInt

/-- Such a pick that exceeds the target by less than a cent only if all eligible coins together do
not reach the target plus a cent. -/
structure CoinPick.Covers (target : Amount) (eligible : List Coin) (pick : CoinPick) : Prop extends
    pick.Pays target eligible where
  change : pick.value = target ∨ (target + cent).toInt ≤ pick.value.toInt ∨
    worth eligible < (target + cent).toInt

/-- A pick covers the target, and there is none only if the eligible coins fall short of it. -/
def Settles (target : Amount) (eligible : List Coin) : Option CoinPick → Prop
  | none => worth eligible < target.toInt
  | some pick => pick.Covers target eligible

variable {target : Amount} {eligible eligible' : List Coin} {coin : Coin} {pool : CoinPool}

/-- What pays from some coins pays from more. -/
theorem CoinPick.Pays.of_subperm {pick : CoinPick} (h : pick.Pays target eligible)
    (hsub : eligible.Subperm eligible') : pick.Pays target eligible' :=
  ⟨h.coins.trans hsub, h.value, h.reaches⟩

/-- Whether a pick settles a target does not depend on the order of the eligible coins. -/
theorem Settles.of_perm (hperm : eligible.Perm eligible') :
    ∀ {picked}, Settles target eligible picked → Settles target eligible' picked
  | none, h => show worth eligible' < target.toInt from worth_perm hperm ▸ h
  | some _, h => ⟨h.toPays.of_subperm hperm.subperm, by
    rw [← worth_perm hperm]
    exact h.change⟩

/-- A single coin covers the target if it hits it, or is above it by a cent or more. -/
theorem CoinPick.single_covers (hmem : coin ∈ eligible)
    (h : coin.value = target ∨ (target + cent).toInt ≤ coin.value.toInt)
    (hcent : target.toInt ≤ (target + cent).toInt) :
    (CoinPick.single coin).Covers target eligible := by
  refine ⟨⟨(List.singleton_sublist.2 hmem).subperm, (Int.add_zero _).symm, ?_⟩, ?_⟩
  · rcases h with rfl | h
    · exact Int.le_refl _
    · exact Int.le_trans hcent h
  · exact h.elim .inl fun h => .inr (.inl h)

/-! ## Sorting out -/

namespace CoinPool

/-- The pool holds what it says of the coins. -/
structure Sorts (target : Amount) (coins : List Coin) (pool : CoinPool) : Prop where
  smaller : pool.smaller = coins.filter fun coin => coin.value < target + cent
  total : pool.total.toInt = worth pool.smaller
  larger : ∀ coin, pool.larger = some coin →
    coin ∈ coins ∧ (target + cent).toInt ≤ coin.value.toInt
  none : pool.larger = none → pool.smaller = coins
  missed : ∀ coin ∈ coins, coin.value ≠ target

/-- The empty pool holds what it says of no coins. -/
theorem sorts_empty (target : Amount) : Sorts target [] .empty :=
  ⟨rfl, rfl, nofun, fun _ => rfl, nofun⟩

/-- The smaller coins of a pool are among the coins. -/
theorem Sorts.sublist (h : Sorts target eligible pool) : pool.smaller.Sublist eligible := by
  rw [h.smaller]
  exact List.filter_sublist

/-- A coin below the target plus a cent is added to the pool's smaller coins. -/
theorem Sorts.addSmaller (h : Sorts target eligible pool) (hvalue : coin.value ≠ target)
    (hlt : coin.value < target + cent) {total : Amount}
    (htotal : total.toInt = pool.total.toInt + coin.value.toInt) :
    Sorts target (eligible ++ [coin]) { pool with smaller := pool.smaller ++ [coin], total } where
  smaller := by
    dsimp only
    rw [List.filter_append, ← h.smaller, List.filter_singleton, decide_eq_true hlt]
    rfl
  total := by
    dsimp only
    rw [htotal, h.total, worth_append, worth_singleton]
  larger c hc :=
    have ⟨hmem, hle⟩ := h.larger c hc
    ⟨List.mem_append_left _ hmem, hle⟩
  none hnone := congrArg (· ++ [coin]) (h.none hnone)
  missed := List.forall_mem_append.2 ⟨h.missed, List.forall_mem_singleton.2 hvalue⟩

/-- Any other coin is weighed against the larger one known before it. -/
theorem Sorts.addLarger (h : Sorts target eligible pool) (hvalue : coin.value ≠ target)
    (hlt : ¬ coin.value < target + cent) :
    Sorts target (eligible ++ [coin]) { pool with larger := lower pool.larger coin } where
  smaller := by
    dsimp only
    rw [List.filter_append, ← h.smaller, List.filter_singleton, decide_eq_false hlt]
    exact (List.append_nil _).symm
  total := h.total
  larger c hc := by
    have itself : coin ∈ eligible ++ [coin] ∧ (target + cent).toInt ≤ coin.value.toInt :=
      ⟨List.mem_append_right _ (List.mem_singleton.2 rfl), by
        rw [Int64.lt_iff_toInt_lt] at hlt
        omega⟩
    dsimp only at hc
    unfold lower at hc
    split at hc
    · exact Option.some.inj hc ▸ itself
    · next known hknown =>
      have ⟨hmem, hle⟩ := h.larger known hknown
      split at hc
      · exact Option.some.inj hc ▸ itself
      · exact Option.some.inj hc ▸ ⟨List.mem_append_left _ hmem, hle⟩
  none hnone := by
    dsimp only at hnone
    unfold lower at hnone
    split at hnone
    · exact nomatch hnone
    · split at hnone <;> exact nomatch hnone
  missed := List.forall_mem_append.2 ⟨h.missed, List.forall_mem_singleton.2 hvalue⟩

/-- The smaller coins and one more can be added up if all coins can. -/
theorem Sorts.exists_total {rest : List Coin} (h : Sorts target eligible pool)
    (hpayable : Payable (eligible ++ coin :: rest)) :
    ∃ total, pool.total.addInRange coin.value = some total := by
  have sub : (pool.smaller ++ [coin]).Sublist (eligible ++ coin :: rest) :=
    h.sublist.append (List.singleton_sublist.2 List.mem_cons_self)
  have payable := hpayable.of_subperm sub.subperm
  obtain ⟨total, -, htotal⟩ := payable.sumValues "selected coins"
  have inRange : total.inRange = true := by
    rw [Amount.inRange_iff, htotal]
    exact ⟨payable.worth_nonneg, payable.worth_le⟩
  have hcoin := hpayable.inRange coin (List.mem_append_right _ List.mem_cons_self)
  rw [worth_append, worth_singleton, ← h.total] at htotal
  exact ⟨total, Amount.addInRange_eq_some_iff.2 ⟨hcoin, inRange, htotal⟩⟩

/-- How it ends to sort out coins after others. -/
inductive SortsOut (target : Amount) (before coins : List Coin) :
    Except LedgerError (Coin ⊕ CoinPool) → Prop
  /-- It fails only if there is an amount that is not valid. -/
  | failed {failure : LedgerError} : ¬ Payable (before ++ coins) →
    SortsOut target before coins (.error failure)
  /-- One of the coins hits the target. -/
  | hit {exact : Coin} : exact ∈ coins → exact.value = target →
    SortsOut target before coins (.ok (.inl exact))
  /-- The pool holds what it says of them all. -/
  | sorted {pool : CoinPool} : Sorts target (before ++ coins) pool →
    SortsOut target before coins (.ok (.inr pool))

/-- To sort out a coin and then the rest is to sort out the rest after the coin. -/
theorem SortsOut.cons {before rest : List Coin} {ending : Except LedgerError (Coin ⊕ CoinPool)}
    (h : SortsOut target (before ++ [coin]) rest ending) :
    SortsOut target before (coin :: rest) ending := by
  cases h with
  | failed h => exact .failed (by rwa [List.append_assoc] at h)
  | hit hmem hit => exact .hit (List.mem_cons_of_mem _ hmem) hit
  | sorted h => exact .sorted (by rwa [List.append_assoc] at h)

/-- Coins are sorted out after others until one hits the target. -/
theorem Sorts.sortOut : ∀ {coins before : List Coin} {pool : CoinPool},
    Sorts target before pool → SortsOut target before coins (sortOut target coins pool)
  | [], _, _, h => .sorted (by rwa [List.append_nil])
  | coin :: rest, before, pool, h => by
    unfold CoinPool.sortOut
    split
    · next hinvalid =>
      refine .failed fun hpayable => ?_
      rw [hpayable.inRange coin (List.mem_append_right _ List.mem_cons_self)] at hinvalid
      cases hinvalid
    split
    · next hexact => exact .hit List.mem_cons_self hexact
    next hmissed =>
    split
    · next hlt =>
      split
      · next hsum =>
        refine .failed fun hpayable => ?_
        obtain ⟨total, htotal⟩ := h.exists_total hpayable
        exact nomatch hsum.symm.trans htotal
      · next total hsum =>
        obtain ⟨-, -, exact⟩ := Amount.addInRange_eq_some_iff.1 hsum
        exact (h.addSmaller hmissed hlt exact).sortOut.cons
    · next hlt => exact (h.addLarger hmissed hlt).sortOut.cons

/-! ## Picking -/

/-- The coins that a subset includes are among the coins. -/
theorem included_sublist (coins : List Coin) (subset : Subset) :
    (included coins subset).Sublist coins :=
  Subset.chosen_sublist subset.included coins

/-- Their values are those that the subset chooses. -/
theorem worth_included (coins : List Coin) (subset : Subset) :
    worth (included coins subset) = Subset.weight subset.included (coins.map (·.value)) :=
  congrArg Amount.total (Subset.chosen_map _ _ _).symm

section
variable {σ : Type} [RandomSource σ]

/-- Of the coins below the target plus a cent a subset is found that reaches the target, if they do.
It exceeds the target by less than a cent only if they do not reach that much. -/
theorem candidate_bestOf {values : List Amount} (hrange : ∀ v ∈ values, v.inRange = true)
    (hmax : Amount.total values ≤ maxMoney.toInt) (hsum : pool.total.toInt = Amount.total values)
    (htarget : target.toInt ≤ (target + cent).toInt) (rounds : Nat) (source : σ) :
    Subset.Candidate values target (pool.bestOf values target rounds source).1 ∧
      ((pool.bestOf values target rounds source).1.value = target ∨
        (target + cent).toInt ≤ (pool.bestOf values target rounds source).1.value.toInt ∨
        pool.total.toInt < (target + cent).toInt) := by
  unfold bestOf
  dsimp only
  have first := Subset.candidate_bestSubset hrange hmax hsum target rounds source
  split
  · next h =>
    obtain ⟨-, hcent⟩ := h
    have reachable := Int64.le_iff_toInt_le.1 hcent
    have second := Subset.candidate_bestSubset hrange hmax hsum (target + cent) rounds
      (bestSubset values pool.total target rounds source).2
    have reached := second.reaches (hsum ▸ reachable)
    exact ⟨⟨second.length, second.value, fun _ => Int.le_trans htarget reached⟩,
      .inr (.inl reached)⟩
  · next h =>
    refine ⟨first, ?_⟩
    by_cases hit : (bestSubset values pool.total target rounds source).1.value = target
    · exact .inl hit
    · have short : ¬ pool.total ≥ target + cent := fun hge => h ⟨hit, hge⟩
      rw [ge_iff_le, Int64.le_iff_toInt_le] at short
      exact .inr (.inr (by omega))

/-- The subset of the smaller coins that is found pays for the target, if these coins reach it. It
exceeds the target by less than a cent only if they do not reach that much. -/
theorem pays_included (h : Sorts target eligible pool) (hpayable : Payable eligible)
    (htarget : target.toInt ≤ (target + cent).toInt) (hreaches : target.toInt ≤ pool.total.toInt)
    {coins : List Coin} (hperm : coins.Perm pool.smaller) (rounds : Nat) (source : σ) :
    let best := (pool.bestOf (coins.map (·.value)) target rounds source).1
    CoinPick.Pays target eligible ⟨included coins best, best.value⟩ ∧
      (best.value = target ∨ (target + cent).toInt ≤ best.value.toInt ∨
        pool.total.toInt < (target + cent).toInt) := by
  intro best
  have sub := hperm.subperm.trans h.sublist.subperm
  have payable := hpayable.of_subperm sub
  have hsum : pool.total.toInt = worth coins := h.total.trans (worth_perm hperm.symm)
  obtain ⟨candidate, change⟩ := candidate_bestOf payable.values_inRange payable.worth_le hsum
    htarget rounds source
  refine ⟨⟨?_, ?_, ?_⟩, change⟩
  · exact (included_sublist coins best).subperm.trans sub
  · exact candidate.value.trans (worth_included coins best).symm
  · exact candidate.reaches (Int.le_trans hreaches (Int.le_of_eq hsum))

/-- What is picked from the pool settles the target. -/
theorem settles_pick (h : Sorts target eligible pool) (hpayable : Payable eligible)
    (htarget : target.inRange = true) (rounds : Nat) (source : σ) :
    Settles target eligible (pool.pick target rounds source).1 := by
  have hcent : target.toInt ≤ (target + cent).toInt := by
    rw [Amount.toInt_add_cent htarget]
    omega
  have single {larger : Coin} (hlarger : pool.larger = some larger) :
      Settles target eligible (some (.single larger)) :=
    have ⟨hmem, hle⟩ := h.larger larger hlarger
    CoinPick.single_covers hmem (.inr hle) hcent
  unfold pick
  split
  · next hit =>
    exact ⟨⟨h.sublist.subperm, h.total, Int64.le_iff_toInt_le.1 (Int64.le_of_eq hit.symm)⟩,
      .inl hit⟩
  split
  · next hshort =>
    dsimp only
    cases hlarger : pool.larger with
    | some larger => exact single hlarger
    | none =>
      rw [Option.map_none]
      show worth eligible < target.toInt
      rw [← h.none hlarger, ← h.total]
      exact Int64.lt_iff_toInt_lt.1 hshort
  next hreaches =>
  rw [Int64.lt_iff_toInt_lt] at hreaches
  dsimp only
  -- The smaller coins reach the target. What the search finds does not rest on their being sorted,
  -- only on the sort being a permutation.
  obtain ⟨pays, change⟩ := pays_included h hpayable hcent (Int.not_lt.1 hreaches)
    (List.mergeSort_perm pool.smaller fun a b => a.value ≥ b.value) rounds source
  generalize pool.smaller.mergeSort (fun a b => a.value ≥ b.value) = coins at pays change ⊢
  generalize pool.bestOf (coins.map (·.value)) target rounds source = found at pays change ⊢
  cases hlarger : pool.larger with
  | none =>
    refine ⟨pays, ?_⟩
    rwa [← h.none hlarger, ← h.total]
  | some larger =>
    dsimp only
    split
    · exact single hlarger
    · next hprefers =>
      refine ⟨pays, ?_⟩
      unfold prefersLarger at hprefers
      simp only [Bool.or_eq_true, Bool.and_eq_true, decide_eq_true_eq, not_or, not_and] at hprefers
      -- No larger coin is preferred, so a subset that misses the target is at least a cent above
      -- it.
      by_cases hit : found.1.value = target
      · exact .inl hit
      · have above := hprefers.1 hit
        rw [Int64.lt_iff_toInt_lt] at above
        exact .inr (.inl (Int.not_lt.1 above))

end

end CoinPool

/-! ## Covering -/

section
variable {σ : Type} [RandomSource σ] {rule : DepthRule} {coins : List Coin}
  (htarget : target.inRange = true) (hpayable : Payable (coins.filter rule.admits))
  (rounds : Nat) (source : σ)
include htarget hpayable

/-- An eligible coin that hits the target is answered alone; if none does, a pool of the eligible
coins is picked from. -/
theorem coverTarget_cases :
    (∃ exact ∈ coins.filter rule.admits, exact.value = target ∧
      (coverTarget target rule coins rounds source).1 = .ok (some (.single exact))) ∨
    ∃ (eligible : List Coin) (pool : CoinPool) (drawn : σ),
      eligible.Perm (coins.filter rule.admits) ∧ pool.Sorts target eligible ∧
        (coverTarget target rule coins rounds source).1 =
          .ok (pool.pick target rounds drawn).1 := by
  unfold coverTarget checkTarget
  rw [if_pos htarget]
  dsimp only
  have perm := (RandomSource.shuffle_perm coins source).filter rule.admits
  generalize RandomSource.shuffle coins source = shuffled at perm ⊢
  have payable := hpayable.of_subperm perm.subperm
  have ends : CoinPool.SortsOut target [] (shuffled.1.filter rule.admits) _ :=
    (CoinPool.sorts_empty target).sortOut
  generalize CoinPool.sortOut target (shuffled.1.filter rule.admits) .empty = ending at ends ⊢
  cases ends with
  | failed h => exact absurd payable h
  | hit hmem hit => exact .inl ⟨_, perm.subset hmem, hit, rfl⟩
  | sorted sorts => exact .inr ⟨_, _, _, perm, sorts, rfl⟩

/-- Covering a target gives a pick or none, as the eligible coins reach the target or fall short,
and fails only if there is an amount that is not valid. -/
theorem coverTarget_outcomes :
    ∃ picked, (coverTarget target rule coins rounds source).1 = .ok picked ∧
      Settles target (coins.filter rule.admits) picked := by
  rcases coverTarget_cases htarget hpayable rounds source with
    ⟨exact, hmem, hit, hcover⟩ | ⟨eligible, pool, drawn, perm, sorts, hcover⟩
  · refine ⟨_, hcover, CoinPick.single_covers hmem (.inl hit) ?_⟩
    rw [Amount.toInt_add_cent htarget]
    omega
  · have payable := hpayable.of_subperm perm.subperm
    exact ⟨_, hcover, .of_perm perm (CoinPool.settles_pick sorts payable htarget rounds _)⟩

end

/-- A target within the range of amounts, to be covered from eligible coins whose values and sum are
in range too, is never refused. The answer is none exactly if the eligible coins together fall short
of the target. Otherwise it is some of the eligible coins, none of them more often than it occurs,
and the value answered is the sum of theirs and reaches the target. This holds whatever is drawn,
and however few rounds the search is given. -/
theorem coverTarget_complete {σ : Type} [RandomSource σ] {rule : DepthRule} {coins : List Coin}
    (htarget : target.inRange = true) (hpayable : Payable (coins.filter rule.admits))
    (rounds : Nat) (source : σ) :
    ∃ picked, (coverTarget target rule coins rounds source).1 = .ok picked ∧
      (picked = none ↔ worth (coins.filter rule.admits) < target.toInt) ∧
      ∀ pick, picked = some pick → pick.coins.Subperm (coins.filter rule.admits) ∧
        pick.value.toInt = worth pick.coins ∧ target.toInt ≤ pick.value.toInt := by
  obtain ⟨picked, hcover, settles⟩ := coverTarget_outcomes htarget hpayable rounds source
  refine ⟨picked, hcover, ?_⟩
  cases picked with
  | none => exact ⟨iff_of_true rfl settles, nofun⟩
  | some pick =>
    have enough : target.toInt ≤ worth (coins.filter rule.admits) :=
      calc target.toInt ≤ pick.value.toInt := settles.reaches
        _ = worth pick.coins := settles.value
        _ ≤ worth (coins.filter rule.admits) := worth_le_of_subperm settles.coins hpayable.inRange
    refine ⟨iff_of_false nofun (Int.not_lt.2 enough), ?_⟩
    rintro _ ⟨⟩
    exact ⟨settles.coins, settles.value, settles.reaches⟩

/-- Coins of 500 and 300, a coin that is too shallow where coins of others need six confirmations,
and a coin that we cannot sign for, whose value is no valid amount. -/
def assortedCoins : List Coin :=
  [⟨⟨Bytes.zero, 0⟩, 500, 6, true, false, false⟩, ⟨⟨Bytes.zero, 1⟩, 300, 1, true, false, true⟩,
    ⟨⟨Bytes.zero, 2⟩, 900, 5, true, false, false⟩, ⟨⟨Bytes.zero, 3⟩, -1, 6, false, false, false⟩]

/-- The first two of them cover a target of 700, and fall short of one of 900. -/
theorem coverTarget_complete_assorted :
    let rule : DepthRule := ⟨1, 6⟩
    let cover (target : Amount) := (coverTarget target rule assortedCoins 1000 (⟨7⟩ : SplitMix)).1
    Payable (assortedCoins.filter rule.admits) ∧
      (∃ pick, cover 700 = .ok (some pick) ∧
        pick.coins.Subperm (assortedCoins.filter rule.admits) ∧
        pick.value.toInt = worth pick.coins ∧ 700 ≤ pick.value.toInt) ∧
      cover 900 = .ok none := by
  intro rule cover
  have hpayable : Payable (assortedCoins.filter rule.admits) :=
    ⟨by decide +kernel, by decide +kernel⟩
  have outcomes {target : Amount} (htarget : target.inRange = true) :=
    coverTarget_complete htarget hpayable 1000 (⟨7⟩ : SplitMix)
  obtain ⟨enough, henough, hsome, hpick⟩ := outcomes (show (700 : Amount).inRange = true from rfl)
  obtain ⟨short, hshort, hnone, -⟩ := outcomes (show (900 : Amount).inRange = true from rfl)
  refine ⟨hpayable, ?_, ?_⟩
  · cases enough with
    | none => exact absurd (hsome.1 rfl) (by decide +kernel)
    | some pick => exact ⟨pick, henough, hpick pick rfl⟩
  · rw [← hnone.2 (by decide +kernel)]
    exact hshort

/-- Change of less than a cent is given only if it cannot be avoided. Where a pick exceeds the
target by less than a cent, all eligible coins together do not reach the target plus a cent. And
where an eligible coin has just the target's value, what is picked has it too. -/
theorem coverTarget_avoids_dust {σ : Type} [RandomSource σ] {rule : DepthRule} {coins : List Coin}
    (htarget : target.inRange = true) (hpayable : Payable (coins.filter rule.admits))
    (rounds : Nat) (source : σ) :
    (∀ pick, (coverTarget target rule coins rounds source).1 = .ok (some pick) →
      target.toInt < pick.value.toInt → pick.value.toInt < target.toInt + cent.toInt →
        worth (coins.filter rule.admits) < target.toInt + cent.toInt) ∧
    ((∃ coin ∈ coins.filter rule.admits, coin.value = target) →
      ∃ pick, (coverTarget target rule coins rounds source).1 = .ok (some pick) ∧
        pick.value = target) := by
  have exact : (target + cent).toInt = target.toInt + cent.toInt := Amount.toInt_add_cent htarget
  constructor
  · intro pick hpick above below
    obtain ⟨picked, hcover, settles⟩ := coverTarget_outcomes htarget hpayable rounds source
    obtain rfl : some pick = picked := Except.ok.inj (hpick.symm.trans hcover)
    rcases settles.change with hit | cent | short
    · rw [hit] at above
      exact absurd above (Int.lt_irrefl _)
    · omega
    · rwa [exact] at short
  · rintro ⟨coin, hcoin, hvalue⟩
    rcases coverTarget_cases htarget hpayable rounds source with
      ⟨exact, -, hit, hcover⟩ | ⟨eligible, pool, drawn, perm, sorts, -⟩
    · exact ⟨_, hcover, hit⟩
    · exact absurd hvalue (sorts.missed coin (perm.symm.subset hcoin))

/-- Of the coins above, both that are eligible are taken for 700, and the change of 100 cannot be
avoided. For 300 one of them will do. -/
theorem coverTarget_avoids_dust_assorted :
    let rule : DepthRule := ⟨1, 6⟩
    let cover (target : Amount) := (coverTarget target rule assortedCoins 1000 (⟨7⟩ : SplitMix)).1
    Payable (assortedCoins.filter rule.admits) ∧
      (∃ pick, cover 700 = .ok (some pick) ∧ 700 < pick.value.toInt ∧
        pick.value.toInt < 700 + cent.toInt ∧
        worth (assortedCoins.filter rule.admits) < 700 + cent.toInt) ∧
      (∃ coin ∈ assortedCoins.filter rule.admits, coin.value = 300) ∧
      ∃ pick, cover 300 = .ok (some pick) ∧ pick.value = 300 := by
  intro rule cover
  have hpayable : Payable (assortedCoins.filter rule.admits) :=
    ⟨by decide +kernel, by decide +kernel⟩
  have inRange : (700 : Amount).inRange = true := rfl
  have held : ∃ coin ∈ assortedCoins.filter rule.admits, coin.value = 300 :=
    ⟨⟨⟨Bytes.zero, 1⟩, 300, 1, true, false, true⟩, by decide +kernel, rfl⟩
  refine ⟨hpayable, ?_, held,
    (coverTarget_avoids_dust (show (300 : Amount).inRange = true from rfl) hpayable 1000 _).2 held⟩
  obtain ⟨picked, hcover, settles⟩ := coverTarget_outcomes inRange hpayable 1000 (⟨7⟩ : SplitMix)
  cases picked with
  | none =>
    have short : worth (assortedCoins.filter rule.admits) < 700 := settles
    exact absurd short (by decide +kernel)
  | some pick =>
    -- no choice of the two coins is worth 700
    have missed : ∀ chosen ∈ (assortedCoins.filter rule.admits).sublists,
        worth chosen ≠ 700 ∧ worth chosen < 700 + cent.toInt := by decide +kernel
    obtain ⟨chosen, perm, sub⟩ := settles.coins
    obtain ⟨hne, below⟩ := missed chosen (List.mem_sublists.2 sub)
    rw [worth_perm perm, ← settles.value] at hne below
    have above : 700 < pick.value.toInt := Int.lt_iff_le_and_ne.2 ⟨settles.reaches, Ne.symm hne⟩
    exact ⟨pick, hcover, above, below,
      (coverTarget_avoids_dust inRange hpayable 1000 _).1 pick hcover above below⟩

end ShieldedLedger
