import ShieldedLedger.Proofs.Selection.Funds

/-!
# What a selection takes

A selection that succeeds takes coins that are listed and that we can sign for, none more often than
it is listed, and beside them the preselected ones if others may be added to these. This needs
nothing of the values of the coins: where a sum leaves the range the selection does not succeed.

The coins found by the search come first (`subperm_of_coverByRules`), then the two ways in which a
selection puts its pick together (`Ledger.selectCoins_takes`). No step of a selection changes an
answer (`Ledger.same_of_eq`), so all it goes by may be read off the ledger at the start.
-/

namespace ShieldedLedger

variable {σ : Type} [RandomSource σ] {target : Amount} {coins eligible : List Coin}
  {picked : CoinPick}

/-! ## Coins found by the search -/

namespace CoinPool

variable {pool : CoinPool}

/-- What is picked from a pool is some of the coins that it was sorted from. -/
theorem subperm_of_pick (h : Sorts target eligible pool) {rounds : Nat} {source : σ}
    (hpick : (pool.pick target rounds source).1 = some picked) :
    picked.coins.Subperm eligible := by
  have single {larger : Coin} (hlarger : pool.larger = some larger) :
      (CoinPick.single larger).coins.Subperm eligible :=
    (List.singleton_sublist.2 (h.larger larger hlarger).1).subperm
  unfold pick at hpick
  split at hpick
  · obtain rfl := Option.some.inj hpick
    exact h.sublist.subperm
  split at hpick
  · obtain ⟨larger, hlarger, rfl⟩ := Option.map_eq_some_iff.1 hpick
    exact single hlarger
  have sub (best : Subset) :
      (included (pool.smaller.mergeSort fun a b => a.value ≥ b.value) best).Subperm eligible :=
    ((included_sublist _ best).subperm.trans (List.mergeSort_perm _ _).subperm).trans
      h.sublist.subperm
  dsimp only at hpick
  split at hpick
  · obtain rfl := Option.some.inj hpick
    exact sub _
  · next larger hlarger =>
    obtain rfl := Option.some.inj hpick
    split
    · exact single hlarger
    · exact sub _

end CoinPool

/-- To cover a target, coins are taken from those that the rule admits. -/
theorem subperm_of_coverTarget {rule : DepthRule} {rounds : Nat} {source : σ}
    (h : (coverTarget target rule coins rounds source).1 = .ok (some picked)) :
    picked.coins.Subperm (coins.filter rule.admits) := by
  unfold coverTarget at h
  split at h
  · cases h
  have perm := (RandomSource.shuffle_perm coins source).filter rule.admits
  dsimp only at h
  generalize RandomSource.shuffle coins source = shuffled at perm h
  refine List.Subperm.trans ?_ perm.subperm
  have ends : CoinPool.SortsOut target [] (shuffled.1.filter rule.admits) _ :=
    (CoinPool.sorts_empty target).sortOut
  generalize CoinPool.sortOut target (shuffled.1.filter rule.admits) .empty = ending at ends h
  cases ends with
  | failed => cases h
  | hit hmem =>
    obtain rfl := Option.some.inj (Except.ok.inj h)
    exact (List.singleton_sublist.2 hmem).subperm
  | sorted sorts => exact CoinPool.subperm_of_pick sorts (Except.ok.inj h)

/-- Whichever rule covers it, from those that we can sign for. -/
theorem subperm_of_coverByRules {rounds : Nat} : ∀ {rules : List DepthRule} {source : σ},
    coverByRules target coins rounds rules source = .ok (some picked) →
    picked.coins.Subperm (coins.filter (·.spendable))
  | [], _, h => nomatch h
  | rule :: rules, source, h => by
    unfold coverByRules at h
    split at h
    · cases h
    · next hcover =>
      obtain rfl := Option.some.inj (Except.ok.inj h)
      exact (subperm_of_coverTarget (congrArg Prod.fst hcover)).trans
        (filter_admits_sublist coins rule).subperm
    · exact subperm_of_coverByRules h

/-! ## Putting a pick together -/

/-- Where every item of a list has a result, the results stand in the items' order. -/
theorem forall₂_of_mapM_eq_ok {ε α β : Type} {f : α → Except ε β} :
    ∀ {items : List α} {results : List β}, items.mapM f = .ok results →
      List.Forall₂ (fun item result => f item = .ok result) items results
  | [], _, h => by
    obtain rfl := Except.ok.inj h
    exact .nil
  | item :: rest, _, h => by
    rw [List.mapM_cons] at h
    obtain ⟨result, hresult, h⟩ := exists_of_bind_eq_ok h
    obtain ⟨results, hresults, h⟩ := exists_of_bind_eq_ok h
    obtain rfl := Except.ok.inj h
    exact .cons hresult (forall₂_of_mapM_eq_ok hresults)

namespace Ledger

variable {keys : KeyView} {chain : ChainView} {l l' : Ledger} {control : Option CoinControl}
  {source : σ}

/-- Where no others may be added, the coins listed that we can sign for are all taken. -/
theorem coins_of_pickExclusive (h : pickExclusive target coins = .ok (some picked)) :
    picked.coins = coins.filter (·.spendable) := by
  unfold pickExclusive at h
  obtain ⟨value, -, h⟩ := exists_of_bind_eq_ok h
  have h := Except.ok.inj h
  split at h
  · cases h
  · obtain rfl := Option.some.inj h
    rfl

/-- Otherwise the preselected coins are all taken, after some of those that we can sign for. -/
theorem coins_of_pickWithPreset {settings : Settings} {preset : List Coin}
    (h : pickWithPreset settings target preset coins source = .ok (some picked)) :
    ∃ chosen : List Coin, chosen.Subperm (coins.filter (·.spendable)) ∧
      picked.coins = chosen ++ preset := by
  unfold pickWithPreset at h
  obtain ⟨presetValue, -, h⟩ := exists_of_bind_eq_ok h
  dsimp only at h
  split at h
  · obtain ⟨_, hcovered, h⟩ := exists_of_bind_eq_ok h
    obtain rfl := Except.ok.inj hcovered
    obtain ⟨value, -, h⟩ := exists_of_bind_eq_ok h
    obtain rfl := Option.some.inj (Except.ok.inj h)
    exact ⟨[], List.nil_subperm, rfl⟩
  · obtain ⟨covered, hcovered, h⟩ := exists_of_bind_eq_ok h
    cases covered with
    | none => cases h
    | some chosen =>
      obtain ⟨value, -, h⟩ := exists_of_bind_eq_ok h
      obtain rfl := Option.some.inj (Except.ok.inj h)
      exact ⟨_, subperm_of_coverByRules hcovered, rfl⟩

/-! ## Reading a selection off the ledger at the start -/

/-- A question that is answered is answered from the ledger, which stays as it is. -/
theorem eq_of_ask {α : Type} {f : Ledger → Except LedgerError α} {a : α}
    (h : LedgerOp.ask f l = (.ok a, l')) : f l = .ok a ∧ l' = l := by
  unfold LedgerOp.ask at h
  split at h
  · next b hb =>
    obtain ⟨hab, hl⟩ := Prod.mk.inj h
    obtain rfl := Except.ok.inj hab
    exact ⟨hb, hl.symm⟩
  · cases (Prod.mk.inj h).1

/-- A steady operation leaves a ledger behind that answers alike. -/
theorem same_of_eq {α : Type} {op : LedgerOp α} (hop : Steady keys chain op)
    {outcome : Except Failure α} (h : op l = (outcome, l')) : SameAnswers keys chain l l' := by
  have same := hop.same l
  rwa [h] at same

/-- What is picked does not go by what is memoized. -/
theorem pickCoins_of_markDirty_eq (h : l'.markDirty = l.markDirty) (target : Amount)
    (control : Option CoinControl) (coins : List Coin) (source : σ) :
    l'.pickCoins chain target control coins source =
      l.pickCoins chain target control coins source := by
  have preselected : l'.preselected chain = l.preselected chain := by
    funext outpoint
    unfold Ledger.preselected
    cases he : l.entry? outpoint.hash with
    | none => rw [entry?_eq_none_of_markDirty_eq h he]
    | some e =>
      obtain ⟨e', he', heq⟩ := entry?_of_markDirty_eq h he
      rw [he']
      dsimp only
      rw [← depthOf_markDirty, h, heq, depthOf_markDirty, record_of_markDirty_eq heq]
  unfold pickCoins
  rw [preselected, settings_of_markDirty_eq h]

/-- A selection picks from what is listed at the start: without coinbases if these are
protected. -/
theorem exists_listed_of_selectCoins {selection : CoinSelection}
    (h : (selectCoins keys chain target control source l).1 = .ok selection) :
    ∃ coins, (availableCoins keys chain
        ⟨true, false, !l.settings.coinbaseMustBeProtected, control⟩ l).1 = .ok coins ∧
      l.pickCoins chain target control coins source = .ok (some selection.pick) := by
  unfold selectCoins at h
  obtain ⟨_, l₀, hchecked, h⟩ := exists_of_bind_ok h
  obtain ⟨-, hl₀⟩ := eq_of_ask hchecked
  rw [hl₀] at h
  obtain ⟨without, l₁, hwithout, h⟩ := exists_of_bind_ok h
  obtain ⟨withThem, l₂, hwith, h⟩ := exists_of_bind_ok h
  have same₁ : SameAnswers keys chain l l₁ := same_of_eq (steady_availableCoins _) hwithout
  have same₂ := same₁.trans (same_of_eq (steady_availableCoins _) hwith)
  have hwith := ((steady_availableCoins _).answer same₁).symm.trans (congrArg Prod.fst hwith)
  rw [bind_of_ok (show (get : LedgerOp Ledger) l₂ = (.ok l₂, l₂) from rfl)] at h
  obtain ⟨need, l₃, hneed, h⟩ := exists_of_bind_ok h
  obtain ⟨-, hl₃⟩ := eq_of_ask hneed
  rw [hl₃] at h
  obtain ⟨picked, l₄, hpicked, h⟩ := exists_of_bind_ok h
  obtain ⟨hpicked, -⟩ := eq_of_ask hpicked
  rw [pickCoins_of_markDirty_eq same₂.markDirty_eq,
    settings_of_markDirty_eq same₂.markDirty_eq] at hpicked
  cases picked with
  | none => cases h
  | some pick =>
    obtain rfl := Except.ok.inj h
    refine ⟨_, ?_, hpicked⟩
    cases l.settings.coinbaseMustBeProtected with
    | true => exact congrArg Prod.fst hwithout
    | false => exact hwith

/-- What a selection takes. Where no others may be added to the preselected coins, it takes all
listed coins that we can sign for. Otherwise it takes what the preselected references name, after
some of the listed coins that we can sign for and that are not preselected. -/
theorem selectCoins_takes {selection : CoinSelection}
    (h : (selectCoins keys chain target control source l).1 = .ok selection) :
    ∃ coins, (availableCoins keys chain
        ⟨true, false, !l.settings.coinbaseMustBeProtected, control⟩ l).1 = .ok coins ∧
      (control.any (·.isExclusive) = true ∧ selection.pick.coins = coins.filter (·.spendable) ∨
        control.any (·.isExclusive) = false ∧ ∃ chosen preset : List Coin,
          selection.pick.coins = chosen ++ preset ∧
          chosen.Subperm (coins.filter fun coin =>
            coin.spendable && !control.any (·.isSelected coin.outpoint)) ∧
          List.Forall₂ (fun outpoint coin => l.preselected chain outpoint = .ok coin)
            (control.elim [] (·.selected.keys)) preset) := by
  obtain ⟨coins, hcoins, hpick⟩ := exists_listed_of_selectCoins h
  refine ⟨coins, hcoins, ?_⟩
  unfold pickCoins at hpick
  split at hpick
  · next hexclusive => exact .inl ⟨hexclusive, coins_of_pickExclusive hpick⟩
  next hothers =>
  rw [Bool.not_eq_true] at hothers
  refine .inr ⟨hothers, ?_⟩
  cases control with
  | none =>
    obtain ⟨chosen, hsub, htaken⟩ := coins_of_pickWithPreset hpick
    refine ⟨chosen, [], htaken, ?_, .nil⟩
    rwa [List.filter_congr fun coin _ => Bool.and_true coin.spendable]
  | some control =>
    obtain ⟨preset, hpreset, hpick⟩ := exists_of_bind_eq_ok hpick
    obtain ⟨chosen, hsub, htaken⟩ := coins_of_pickWithPreset hpick
    rw [List.filter_filter] at hsub
    exact ⟨chosen, preset, htaken, hsub, forall₂_of_mapM_eq_ok hpreset⟩

end Ledger
end ShieldedLedger
