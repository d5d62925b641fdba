import ShieldedLedger.Proofs.Selection.Taken

/-!
# Preselected outputs

What the ledger lists for a selection and we can sign for is described output by output
(`Ledger.Offers`), and what is taken follows from that.

A preselection is honoured if others may be added to it: every preselected output is taken. Where no
others may be added, what is taken is what is preselected and offered, so a preselected output that
is not offered is left out (`Ledger.selectCoins_honours`).

What is taken can be spent (`Ledger.CanSpend`), but for preselected outputs to which others may be
added: nothing is asked of these but to be there (`Ledger.selectCoins_safe`).
-/

namespace ShieldedLedger

/-- An output that a place of a record tells apart is found at that place. -/
theorem mem_locatedOutputs_iff {r : Record} (h : r.outputs.length ≤ UInt32.size)
    {outpoint : OutPoint} {o : TxOut} : (outpoint, o) ∈ r.locatedOutputs ↔
      outpoint.hash = r.hash ∧ r.output? outpoint.index = some o := by
  unfold Record.locatedOutputs Record.output?
  rw [List.mem_map]
  constructor
  · rintro ⟨⟨_, n⟩, hmem, heq⟩
    obtain ⟨rfl, rfl⟩ := Prod.mk.inj heq
    have found := List.mem_zipIdx_iff_getElem?.1 hmem
    obtain ⟨hn, -⟩ := List.getElem?_eq_some_iff.1 found
    refine ⟨rfl, ?_⟩
    rwa [UInt32.toNat_ofNat_of_lt' (Nat.lt_of_lt_of_le hn h)]
  · rintro ⟨hhash, found⟩
    refine ⟨(o, outpoint.index.toNat), List.mem_zipIdx_iff_getElem?.2 found, ?_⟩
    dsimp only
    rw [UInt32.ofNat_toNat, ← hhash]

namespace CoinControl

variable {control : CoinControl} {outpoint : OutPoint}

/-- An outpoint is selected if it is one of the keys. -/
theorem isSelected_iff : control.isSelected outpoint = true ↔ outpoint ∈ control.selected.keys :=
  Option.isSome_iff_exists.trans SortedMap.mem_keys_iff.symm

/-- If one outpoint is selected, something is. -/
theorem hasSelected_of_isSelected (h : control.isSelected outpoint = true) :
    control.hasSelected = true := by
  cases hempty : control.selected.isEmpty with
  | false =>
    unfold hasSelected
    rw [hempty]
    rfl
  | true =>
    unfold isSelected at h
    rw [SortedMap.eq_empty_of_isEmpty hempty] at h
    cases h

/-- True if an output is preselected and others may be added to it. -/
def presets (c : CoinControl) (outpoint : OutPoint) : Bool :=
  c.allowOthers && c.isSelected outpoint

end CoinControl

namespace Ledger

variable {σ : Type} [RandomSource σ] {keys : KeyView} {chain : ChainView} {l : Ledger}
  {target : Amount} {control : Option CoinControl} {source : σ} {outpoint : OutPoint}
  {coins : List Coin} {coin : Coin}

/-! ## What is offered -/

/-- Entries are found by their hashes, and places tell the outputs of their records apart. -/
def WellPlaced (l : Ledger) : Prop :=
  ∀ {hash e}, l.entry? hash = some e → e.hash = hash ∧ e.record.outputs.length ≤ UInt32.size

/-- So it is after every run, if no record taken in has more outputs than there are places. -/
theorem SpendIndexed.wellPlaced (h : SpendIndexed l) (hsize : ∀ {hash e},
    l.entry? hash = some e → e.record.outputs.length ≤ UInt32.size) : l.WellPlaced := fun he =>
  ⟨h.hash_eq he, hsize he⟩

/-- The reference names an output of an entry that is not conflicted. The output is ours to spend,
or to watch if that is enough, no entry that is not conflicted spends it, and if it is of a coinbase
it has matured. -/
structure CanSpend (l : Ledger) (keys : KeyView) (chain : ChainView) (watched : Bool)
    (outpoint : OutPoint) (e : Entry) (o : TxOut) : Prop where
  entry : l.entry? outpoint.hash = some e
  output : e.record.output? outpoint.index = some o
  current : 0 ≤ l.depthOf chain e
  ours : keys.ownership o.script = .spendable ∨
    watched = true ∧ keys.ownership o.script = .watchOnly
  unspent : l.isSpent chain outpoint = false
  mature : e.record.isCoinbase = true → l.blocksToMaturity chain e ≤ 0

/-- Moreover its entry is trusted, it is not locked, it has a value, and it is not of a coinbase
while these are protected. -/
structure Offers (l : Ledger) (keys : KeyView) (chain : ChainView) (watched : Bool)
    (outpoint : OutPoint) (e : Entry) (o : TxOut) : Prop extends
    CanSpend l keys chain watched outpoint e o where
  trusted : (isTrusted keys chain outpoint.hash l).1 = .ok true
  unlocked : l.isLocked outpoint = false
  positive : 0 < o.value
  unprotected : e.record.isCoinbase = true → l.settings.coinbaseMustBeProtected = false

/-- What the caller's choice means for an output that is not foreign. -/
theorem ours_iff {ownership : Ownership} {watched : Bool} :
    ownership ≠ .foreign ∧ (ownership == .spendable || watched) = true ↔
      ownership = .spendable ∨ watched = true ∧ ownership = .watchOnly := by
  cases ownership <;> cases watched <;> decide

section
variable (hplaced : l.WellPlaced)
  (h : (availableCoins keys chain
    ⟨true, false, !l.settings.coinbaseMustBeProtected, control⟩ l).1 = .ok coins)
include hplaced h

/-- The coins that a selection may take are those of offered outputs. -/
theorem offers_of_mem (hc : coin ∈ coins) (hsign : coin.spendable = true) :
    control.all (·.admits coin.outpoint) = true ∧ ∃ e o,
      l.Offers keys chain (control.any (·.allowWatchOnly)) coin.outpoint e o ∧
        coin.value = o.value ∧ coin.depth = l.depthOf chain e := by
  obtain ⟨hash, e, he, heeded, listed, -, ⟨outpoint, o⟩, ho, hcoin⟩ :=
    exists_of_mem_availableCoins h hc
  obtain ⟨⟨known, unspent, unlocked, positive, admitted⟩, made⟩ := coin?_eq_some_iff.1 hcoin
  obtain ⟨heq, hsize⟩ := hplaced he
  obtain ⟨hhash, output⟩ := (mem_locatedOutputs_iff hsize).1 ho
  obtain rfl : outpoint.hash = hash := hhash.trans heq
  obtain ⟨current, coinbase⟩ := lists_eq_true_iff.1 listed
  have place : coin.outpoint = outpoint := by rw [made]
  have sign : (keys.ownership o.script == .spendable || control.any (·.allowWatchOnly)) = true := by
    rwa [made] at hsign
  rw [place]
  refine ⟨admitted, e, o, ⟨⟨he, output, current, ours_iff.1 ⟨known, sign⟩, unspent,
    fun hc => (coinbase hc).2⟩, heeded, unlocked, positive.resolve_right Bool.false_ne_true,
    fun hc => ?_⟩, by rw [made], by rw [made]⟩
  simpa using (coinbase hc).1

/-- Every offered output that the caller admits makes such a coin. -/
theorem mem_of_offers {o : TxOut}
    (hoffers : l.Offers keys chain (control.any (·.allowWatchOnly)) outpoint e o)
    (hadmits : control.all (·.admits outpoint) = true) :
    ∃ coin ∈ coins, coin.spendable = true ∧ coin.outpoint = outpoint := by
  have listed : l.lists chain
      ⟨true, false, !l.settings.coinbaseMustBeProtected, control⟩ e = true := by
    refine lists_eq_true_iff.2 ⟨hoffers.current, fun hc => ⟨?_, hoffers.mature hc⟩⟩
    simpa using hoffers.unprotected hc
  obtain ⟨fromMe, hsub⟩ := exists_coinsOf_subset h hoffers.entry hoffers.trusted listed
  obtain ⟨hhash, hsize⟩ := hplaced hoffers.entry
  obtain ⟨known, sign⟩ := ours_iff.2 hoffers.ours
  refine ⟨_, hsub _ (mem_coinsOf_iff.2 ⟨(outpoint, o), ?_, coin?_eq_some_iff.2 ⟨?_, rfl⟩⟩), sign,
    rfl⟩
  · exact (mem_locatedOutputs_iff hsize).2 ⟨hhash.symm, hoffers.output⟩
  · exact ⟨known, hoffers.unspent, hoffers.unlocked, .inl hoffers.positive, hadmits⟩

end

/-! ## A preselection is honoured -/

/-- What a preselected reference names is taken as it is found. -/
theorem preselected_eq_ok_iff : l.preselected chain outpoint = .ok coin ↔
    ∃ e o, l.entry? outpoint.hash = some e ∧ e.record.output? outpoint.index = some o ∧
      coin = ⟨outpoint, o.value, l.depthOf chain e, true, e.record.isCoinbase, false⟩ := by
  unfold preselected
  cases he : l.entry? outpoint.hash with
  | none => exact ⟨nofun, fun ⟨_, _, h, _⟩ => nomatch h⟩
  | some e =>
    dsimp only
    cases ho : e.record.output? outpoint.index with
    | none =>
      refine ⟨nofun, fun ⟨e', _, h, ho', _⟩ => ?_⟩
      obtain rfl := Option.some.inj h
      exact nomatch ho.symm.trans ho'
    | some o =>
      refine ⟨fun h => ⟨e, o, rfl, ho, (Except.ok.inj h).symm⟩, fun ⟨e', o', h, ho', hcoin⟩ => ?_⟩
      obtain rfl := Option.some.inj h
      obtain rfl := Option.some.inj (ho.symm.trans ho')
      exact congrArg Except.ok hcoin.symm

/-- The preselected coins lie at the references, and each of them is what its reference names. -/
theorem outpoints_of_preselected {outpoints : List OutPoint} {preset : List Coin}
    (h : List.Forall₂ (fun outpoint coin => l.preselected chain outpoint = .ok coin)
      outpoints preset) : preset.map (·.outpoint) = outpoints ∧
        ∀ coin ∈ preset, l.preselected chain coin.outpoint = .ok coin := by
  induction h with
  | nil => exact ⟨rfl, nofun⟩
  | @cons outpoint coin _ _ hcoin _ ih =>
    have place : coin.outpoint = outpoint := by
      obtain ⟨_, _, _, _, rfl⟩ := preselected_eq_ok_iff.1 hcoin
      rfl
    subst place
    exact ⟨congrArg _ ih.1, List.forall_mem_cons.2 ⟨hcoin, ih.2⟩⟩

section
variable {selection : CoinSelection}
  (h : (selectCoins keys chain target control source l).1 = .ok selection)
include h

/-- A preselected output to which others may be added is taken. -/
theorem mem_of_presets (hpresets : control.any (·.presets outpoint) = true) :
    outpoint ∈ selection.pick.coins.map (·.outpoint) := by
  obtain ⟨control, rfl, hpresets⟩ := (Option.any_eq_true _ _).1 hpresets
  obtain ⟨hothers, hselected⟩ := Bool.and_eq_true_iff.1 hpresets
  obtain ⟨coins, -, ⟨hexclusive, -⟩ | ⟨-, chosen, preset, htaken, -, hpreset⟩⟩ :=
    selectCoins_takes h
  · rw [Option.any_some, CoinControl.isExclusive, hothers, Bool.not_true, Bool.and_false]
      at hexclusive
    cases hexclusive
  · rw [htaken, List.map_append, (outpoints_of_preselected hpreset).1]
    exact List.mem_append_right _ (CoinControl.isSelected_iff.1 hselected)

/-- What is taken is offered, unless it is preselected and others may be added to it. -/
theorem taken_cases (hplaced : l.WellPlaced) (hc : coin ∈ selection.pick.coins) :
    (control.any (·.presets coin.outpoint) = false ∧
      control.all (·.admits coin.outpoint) = true ∧ ∃ e o,
        l.Offers keys chain (control.any (·.allowWatchOnly)) coin.outpoint e o ∧
          coin.value = o.value ∧ coin.depth = l.depthOf chain e) ∨
      control.any (·.presets coin.outpoint) = true ∧
        l.preselected chain coin.outpoint = .ok coin := by
  obtain ⟨coins, hcoins, ⟨hexclusive, htaken⟩ | ⟨hothers, chosen, preset, htaken, hsub, hpreset⟩⟩ :=
    selectCoins_takes h
  -- Where no others may be added, nothing counts as preset: what is taken is filtered from what is
  -- offered.
  · obtain ⟨control, rfl, hexclusive⟩ := (Option.any_eq_true _ _).1 hexclusive
    rw [htaken] at hc
    obtain ⟨hc, hsign⟩ := List.mem_filter.1 hc
    have alone : control.allowOthers = false := by
      simpa using (Bool.and_eq_true_iff.1 hexclusive).2
    refine .inl ⟨?_, offers_of_mem hplaced hcoins hc hsign⟩
    rw [Option.any_some, CoinControl.presets, alone, Bool.false_and]
  rw [htaken] at hc
  rcases List.mem_append.1 hc with hc | hc
  · obtain ⟨hc, hfree⟩ := List.mem_filter.1 (hsub.subset hc)
    obtain ⟨hsign, hfree⟩ := Bool.and_eq_true_iff.1 hfree
    refine .inl ⟨?_, offers_of_mem hplaced hcoins hc hsign⟩
    cases control with
    | none => rfl
    | some control =>
      have unselected : control.isSelected coin.outpoint = false := by simpa using hfree
      rw [Option.any_some, CoinControl.presets, unselected, Bool.and_false]
  · obtain ⟨places, found⟩ := outpoints_of_preselected hpreset
    refine .inr ⟨?_, found coin hc⟩
    have hmem := List.mem_map_of_mem (f := (·.outpoint)) hc
    rw [places] at hmem
    cases control with
    | none => exact absurd hmem List.not_mem_nil
    | some control =>
      have selected := CoinControl.isSelected_iff.2 hmem
      rw [Option.any_some, CoinControl.isExclusive,
        CoinControl.hasSelected_of_isSelected selected, Bool.true_and] at hothers
      have others : control.allowOthers = true := by simpa using hothers
      rw [Option.any_some, CoinControl.presets, others, selected]
      rfl

/-- No output is taken twice. -/
theorem nodup_taken (hplaced : l.WellPlaced) :
    (selection.pick.coins.map (·.outpoint)).Nodup := by
  obtain ⟨coins, hcoins, ⟨-, htaken⟩ | ⟨-, chosen, preset, htaken, hsub, hpreset⟩⟩ :=
    selectCoins_takes h
  · rw [htaken]
    exact (List.filter_sublist.map _).nodup (nodup_availableCoins hplaced hcoins)
  · rw [htaken, List.map_append, (outpoints_of_preselected hpreset).1]
    refine List.nodup_append.2 ⟨?_, ?_, ?_⟩
    · obtain ⟨between, hperm, hsub⟩ := hsub.trans List.filter_sublist.subperm
      refine (hperm.map _).nodup_iff.1 ?_
      exact (hsub.map _).nodup (nodup_availableCoins hplaced hcoins)
    · cases control with
      | none => exact .nil
      | some control => exact control.selected.nodup_keys
    · rintro outpoint hchosen _ hselected rfl
      obtain ⟨coin, hcoin, rfl⟩ := List.mem_map.1 hchosen
      have hfree := (List.mem_filter.1 (hsub.subset hcoin)).2
      cases control with
      | none => cases hselected
      | some control =>
        rw [Option.any_some, CoinControl.isSelected_iff.2 hselected] at hfree
        simp at hfree

end

/-- A preselection to which others may be added is taken as a whole. Where no others may be added,
what is taken is what is preselected and offered; so it is the preselection exactly if all of that
is offered. -/
theorem selectCoins_honours (hplaced : l.WellPlaced) {control : CoinControl}
    (hselected : control.hasSelected = true) {selection : CoinSelection}
    (h : (selectCoins keys chain target (some control) source l).1 = .ok selection) :
    let taken := selection.pick.coins.map (·.outpoint)
    let offered := fun outpoint => ∃ e o,
      l.Offers keys chain control.allowWatchOnly outpoint e o
    (control.allowOthers = true → ∀ outpoint, control.isSelected outpoint = true →
      outpoint ∈ taken) ∧
    (control.allowOthers = false →
      (∀ outpoint, outpoint ∈ taken ↔ control.isSelected outpoint = true ∧ offered outpoint) ∧
      ((∀ outpoint, outpoint ∈ taken ↔ control.isSelected outpoint = true) ↔
        ∀ outpoint, control.isSelected outpoint = true → offered outpoint)) := by
  intro taken offered
  refine ⟨fun hothers outpoint hmem => mem_of_presets h ?_, fun hothers => ?_⟩
  · rw [Option.any_some, CoinControl.presets, hothers, hmem]
    rfl
  have hexclusive : control.isExclusive = true := by
    rw [CoinControl.isExclusive, hselected, hothers]
    rfl
  have admits (outpoint : OutPoint) : control.admits outpoint = control.isSelected outpoint := by
    rw [CoinControl.admits, hexclusive]
    rfl
  have taken_iff (outpoint : OutPoint) :
      outpoint ∈ taken ↔ control.isSelected outpoint = true ∧ offered outpoint := by
    constructor
    · intro hmem
      obtain ⟨coin, hcoin, rfl⟩ := List.mem_map.1 hmem
      rcases taken_cases h hplaced hcoin with ⟨-, hadmits, e, o, offers, -⟩ | ⟨hpresets, -⟩
      · rw [Option.all_some, admits] at hadmits
        exact ⟨hadmits, e, o, offers⟩
      · rw [Option.any_some, CoinControl.presets, hothers] at hpresets
        cases hpresets
    · rintro ⟨hmem, e, o, offers⟩
      obtain ⟨coins, hcoins, ⟨-, htaken⟩ | ⟨hnot, -⟩⟩ := selectCoins_takes h
      · obtain ⟨coin, hcoin, hsign, rfl⟩ := mem_of_offers hplaced hcoins offers
          ((admits outpoint).trans hmem)
        refine List.mem_map_of_mem ?_
        rw [htaken]
        exact List.mem_filter.2 ⟨hcoin, hsign⟩
      · exact nomatch hexclusive.symm.trans hnot
  refine ⟨taken_iff, ?_⟩
  constructor
  · exact fun hall outpoint hmem => ((taken_iff outpoint).1 ((hall outpoint).2 hmem)).2
  · exact fun hall outpoint => (taken_iff outpoint).trans (and_iff_left_of_imp (hall outpoint))

/-- A transaction that pays us and somebody else. -/
def shared : Transaction :=
  { TxBody.blank with
    inputs := [⟨⟨Bytes.filled 32 0x77, 0⟩, Simulation.unlockScript, 0xffffffff⟩]
    outputs := [Simulation.payment Simulation.ourTag 600, Simulation.payment 9 500] }.freeze

/-- One that pays us. -/
def pending : Transaction :=
  (Simulation.spendOf ⟨Bytes.filled 32 0x88, 0⟩ Simulation.ourTag 500).freeze

/-- A ledger that has seen the first in a block, and the other one outside of blocks. -/
def waiting : Simulation.Node :=
  (((Simulation.Node.start Settings.default).connect "paid" [.transaction shared]).2.2.syncAll
    [.transaction pending] none).2

/-- The coins that its outputs would make. -/
def paidCoin : Coin := ⟨⟨shared.hash, 0⟩, 600, 1, true, false, false⟩
def foreignCoin : Coin := ⟨⟨shared.hash, 1⟩, 500, 1, true, false, false⟩
def pendingCoin : Coin := ⟨⟨pending.hash, 0⟩, 500, 0, true, false, false⟩

/-- What is asked of a selection that takes these coins. -/
def preselecting (coins : List Coin) (others : Bool) : CoinControl :=
  ⟨SortedSet.ofKeys (coins.map (·.outpoint)), others, false⟩

/-- What is preselected are the outpoints of the coins. -/
theorem isSelected_preselecting {others : Bool} :
    (preselecting coins others).isSelected outpoint = true ↔ outpoint ∈ coins.map (·.outpoint) :=
  SortedSet.contains_ofKeys_iff

/-- A selection for a target below each of them gives this. -/
abbrev Selects (control : CoinControl) (selection : CoinSelection) : Prop :=
  (selectCoins waiting.keys.view waiting.chain.view 300 (some control) (⟨7⟩ : SplitMix)
    waiting.ledger).1 = .ok selection

/-- The preselected coins are picked, but for the unconfirmed one if no others may be added. -/
theorem waiting_computed :
    Selects (preselecting [paidCoin, pendingCoin] true)
        ⟨⟨[paidCoin, pendingCoin], 1100⟩, ⟨false, false⟩⟩ ∧
      Selects (preselecting [paidCoin, pendingCoin] false) ⟨⟨[paidCoin], 600⟩, ⟨false, false⟩⟩ ∧
      Selects (preselecting [foreignCoin] true) ⟨⟨[foreignCoin], 500⟩, ⟨false, false⟩⟩ ∧
      pendingCoin.outpoint ≠ paidCoin.outpoint ∧
      (waiting.ledger.output? foreignCoin.outpoint).map (waiting.keys.view.ownership ·.script) =
        some .foreign ∧
      ∀ entry ∈ waiting.ledger.entries.toList,
        entry.2.hash = entry.1 ∧ entry.2.record.outputs.length ≤ UInt32.size := by
  decide +kernel

/-- The entries of this ledger are found by their hashes. -/
theorem wellPlaced_waiting : waiting.ledger.WellPlaced := fun he =>
  waiting_computed.2.2.2.2.2 _ (SortedMap.mem_toList_iff.2 he)

/-- The unconfirmed output is taken if others may be added. If not, the confirmed one is taken
alone, as the unconfirmed one is not offered. -/
theorem selectCoins_honours_waiting :
    let offered := fun coin : Coin => ∃ e o,
      waiting.ledger.Offers waiting.keys.view waiting.chain.view false coin.outpoint e o
    (∃ selection, Selects (preselecting [paidCoin, pendingCoin] true) selection ∧
        pendingCoin.outpoint ∈ selection.pick.coins.map (·.outpoint)) ∧
      ∃ selection, Selects (preselecting [paidCoin, pendingCoin] false) selection ∧
        pendingCoin.outpoint ∉ selection.pick.coins.map (·.outpoint) ∧
        offered paidCoin ∧ ¬ offered pendingCoin := by
  intro offered
  obtain ⟨together, alone, -, differ, -⟩ := waiting_computed
  have selected (others : Bool) :
      (preselecting [paidCoin, pendingCoin] others).isSelected pendingCoin.outpoint = true :=
    isSelected_preselecting.2 (List.mem_cons_of_mem _ List.mem_cons_self)
  obtain ⟨honoured, -⟩ := selectCoins_honours wellPlaced_waiting
    (CoinControl.hasSelected_of_isSelected (selected true)) together
  obtain ⟨-, which⟩ := selectCoins_honours wellPlaced_waiting
    (CoinControl.hasSelected_of_isSelected (selected false)) alone
  obtain ⟨taken_iff, -⟩ := which rfl
  have left : pendingCoin.outpoint ∉ [paidCoin].map (·.outpoint) := fun hmem =>
    differ (List.mem_singleton.1 hmem)
  refine ⟨⟨_, together, honoured rfl _ (selected true)⟩, _, alone, left, ?_, fun hoffered => ?_⟩
  · exact ((taken_iff _).1 List.mem_cons_self).2
  · exact left ((taken_iff _).2 ⟨selected false, hoffered⟩)

/-! ## What is taken can be spent -/

/-- No output is taken twice, and what is taken are outputs of entries, with their values and
depths. An output that is taken can be spent, unless it is preselected and others may be added to
it; so what is taken can be spent exactly if each of those can. -/
theorem selectCoins_safe (hplaced : l.WellPlaced) {selection : CoinSelection}
    (h : (selectCoins keys chain target control source l).1 = .ok selection) :
    let spendable := fun outpoint e o =>
      l.CanSpend keys chain (control.any (·.allowWatchOnly)) outpoint e o
    (selection.pick.coins.map (·.outpoint)).Nodup ∧
    (∀ coin ∈ selection.pick.coins, ∃ e o, l.entry? coin.outpoint.hash = some e ∧
      e.record.output? coin.outpoint.index = some o ∧ coin.value = o.value ∧
      coin.depth = l.depthOf chain e ∧
      (control.any (·.presets coin.outpoint) = false → spendable coin.outpoint e o)) ∧
    ((∀ coin ∈ selection.pick.coins, ∃ e o, spendable coin.outpoint e o) ↔
      ∀ outpoint, control.any (·.presets outpoint) = true → ∃ e o, spendable outpoint e o) := by
  intro spendable
  refine ⟨nodup_taken h hplaced, fun coin hc => ?_, ?_⟩
  · rcases taken_cases h hplaced hc with ⟨-, -, e, o, offers, hvalue, hdepth⟩ | ⟨hpreset, found⟩
    · exact ⟨e, o, offers.entry, offers.output, hvalue, hdepth, fun _ => offers.toCanSpend⟩
    · obtain ⟨e, o, he, ho, hcoin⟩ := preselected_eq_ok_iff.1 found
      refine ⟨e, o, he, ho, by rw [hcoin], by rw [hcoin], fun hnot => ?_⟩
      exact nomatch hnot.symm.trans hpreset
  · constructor
    · intro hall outpoint hpresets
      obtain ⟨coin, hcoin, rfl⟩ := List.mem_map.1 (mem_of_presets h hpresets)
      exact hall coin hcoin
    · intro hall coin hc
      rcases taken_cases h hplaced hc with ⟨-, -, e, o, offers, -⟩ | ⟨hpreset, -⟩
      · exact ⟨e, o, offers.toCanSpend⟩
      · exact hall coin.outpoint hpreset

/-- The confirmed output that pays us can be spent. The one that pays somebody else cannot, and is
taken all the same. -/
theorem selectCoins_safe_waiting :
    let spendable := fun coin : Coin => ∃ e o,
      waiting.ledger.CanSpend waiting.keys.view waiting.chain.view false coin.outpoint e o
    spendable paidCoin ∧ ∃ selection, Selects (preselecting [foreignCoin] true) selection ∧
      foreignCoin ∈ selection.pick.coins ∧ ¬ spendable foreignCoin := by
  intro spendable
  obtain ⟨-, alone, foreign, -, ownership, -⟩ := waiting_computed
  obtain ⟨-, -, safe⟩ := selectCoins_safe wellPlaced_waiting alone
  refine ⟨?_, _, foreign, List.mem_cons_self, ?_⟩
  · exact safe.2 (fun _ h => nomatch h) paidCoin List.mem_cons_self
  · rintro ⟨e, o, canSpend⟩
    have found : waiting.ledger.output? foreignCoin.outpoint = some o := by
      rw [output?, canSpend.entry]
      exact canSpend.output
    rw [found] at ownership
    have foreign := Option.some.inj ownership
    rcases canSpend.ours with h | ⟨-, h⟩
    · exact nomatch foreign.symm.trans h
    · exact nomatch foreign.symm.trans h

end Ledger
end ShieldedLedger
