import ShieldedLedger.Proofs.SpendIndex
import ShieldedLedger.Simulation.Chain
import ShieldedLedger.Simulation.Keys

/-!
# Double spends

Of the records that claim an output or a note at most one is live, unless they are all in blocks of
the active chain. The reason is that every key has one winner, which is a claimant and, as soon as
any claimant is confirmed, a confirmed one (`activeSpender?_of_confirmed`): an unconfirmed entry
that is not conflicted wins everything it claims, so no other claimant of the same key does, and
none is confirmed (`SpendIndexed.wins_of_live`).

The result holds after every run and under every chain view, whatever heights it reports. What a
rebroadcast offers is unconfirmed and not conflicted, so no two of the records it offers claim the
same key.
-/

namespace ShieldedLedger

/-! ## The first item -/

section
variable {α : Type} {before : α → α → Bool} {items : List α} {a : α}

/-- The first item is one of the items. -/
theorem mem_of_earliest? (h : earliest? before items = some a) : a ∈ items := by
  have kept : ∀ (rest : List α) (best : α),
      rest.foldl (fun best b => if before b best then b else best) best ∈ best :: rest := by
    intro rest
    induction rest with
    | nil => exact fun best => List.mem_cons_self
    | cons b rest ih =>
      intro best
      rw [List.foldl_cons]
      split
      · exact List.mem_cons_of_mem _ (ih b)
      · rcases List.mem_cons.1 (ih best) with h | h
        · rw [h]
          exact List.mem_cons_self
        · exact List.mem_cons_of_mem _ (List.mem_cons_of_mem _ h)
  cases items with
  | nil => cases h
  | cons b rest =>
    obtain rfl := Option.some.inj h
    exact kept rest b

/-- There is an earliest item unless there is none at all. -/
theorem earliest?_eq_none_iff : earliest? before items = none ↔ items = [] := by
  cases items with
  | nil => simp [earliest?]
  | cons b rest => simp [earliest?]

end

namespace Ledger

variable {l : Ledger} {chain : ChainView} {key : SpendKey} {a b : Hash256} {x y : Entry}

/-! ## The winner of a key -/

/-- Claimants of a key are the entries that claim it. -/
theorem SpendIndexed.mem_claimants_iff (h : SpendIndexed l) :
    (a, x) ∈ l.claimants key ↔ l.entry? a = some x ∧ key ∈ x.spendKeys := by
  unfold claimants
  rw [List.mem_filterMap]
  constructor
  · rintro ⟨hash, hmem, hx⟩
    obtain ⟨e, he, heq⟩ := Option.map_eq_some_iff.1 hx
    obtain ⟨rfl, rfl⟩ := Prod.mk.inj heq
    obtain ⟨e', he', hk⟩ := (h.mem_iff key hash).1 hmem
    obtain rfl := Option.some.inj (he.symm.trans he')
    exact ⟨he, hk⟩
  · rintro ⟨hx, hk⟩
    exact ⟨a, (h.mem_iff key a).2 ⟨x, hx, hk⟩, by rw [hx]; rfl⟩

/-- If a claimant is confirmed, a confirmed claimant wins. -/
theorem activeSpender?_of_confirmed (hx : (a, x) ∈ l.claimants key)
    (hc : (confirmedHeight? chain x).isSome) :
    ∃ w e, l.activeSpender? chain key = some w ∧ (w, e) ∈ l.claimants key ∧
      (confirmedHeight? chain e).isSome := by
  obtain ⟨height, hheight⟩ := Option.isSome_iff_exists.1 hc
  have claim : (height, x.info.order, a) ∈ l.confirmedClaims chain key :=
    List.mem_filterMap.2 ⟨(a, x), hx, by simp [hheight]⟩
  unfold activeSpender?
  dsimp only
  split
  · next height' order' w hw =>
    obtain ⟨⟨w', e⟩, hmem, he⟩ := List.mem_filterMap.1 (mem_of_earliest? hw)
    obtain ⟨_, hconf, heq⟩ := Option.map_eq_some_iff.1 he
    obtain ⟨rfl, rfl, rfl⟩ : _ ∧ _ ∧ _ := by simpa using heq
    exact ⟨w', e, rfl, hmem, by rw [hconf]; rfl⟩
  · next hn =>
    rw [earliest?_eq_none_iff.1 hn] at claim
    cases claim

/-- A key that is claimed has a winner. -/
theorem exists_activeSpender? (hx : (a, x) ∈ l.claimants key) :
    ∃ w, l.activeSpender? chain key = some w := by
  unfold activeSpender?
  dsimp only
  split
  · next w _ => exact ⟨w, rfl⟩
  · rw [← Option.isSome_iff_exists, Option.isSome_map, Option.isSome_iff_ne_none, ne_eq,
      earliest?_eq_none_iff, List.map_eq_nil_iff]
    intro hnil
    rw [hnil] at hx
    cases hx

/-! ## Live entries -/

/-- The depth of an unconfirmed entry tells only whether it is conflicted. -/
theorem depthOf_of_unconfirmed (hu : confirmedHeight? chain x = none) :
    l.depthOf chain x = if l.isConflicted chain x then -1 else 0 := by
  unfold depthOf
  rw [hu]

/-- What is not conflicted wins what it claims. -/
theorem activeSpender?_of_not_conflicted (hx : (a, x) ∈ l.claimants key) (hh : x.hash = a)
    (hk : key ∈ x.spendKeys) (hn : l.isConflicted chain x = false) :
    l.activeSpender? chain key = some a := by
  obtain ⟨w, hw⟩ : ∃ w, l.activeSpender? chain key = some w := exists_activeSpender? hx
  unfold isConflicted at hn
  have won := List.any_eq_false.1 hn key hk
  simp only [hw, bne_iff_ne, ne_eq, Classical.not_not] at won
  rw [hw, won, hh]

/-- An unconfirmed entry that is live wins everything it claims, and no claimant of the same key is
confirmed. -/
theorem SpendIndexed.wins_of_live (h : SpendIndexed l) (hx : l.entry? a = some x)
    (hk : key ∈ x.spendKeys) (hu : confirmedHeight? chain x = none) (hd : 0 ≤ l.depthOf chain x) :
    l.activeSpender? chain key = some a ∧
    ∀ b y, l.entry? b = some y → key ∈ y.spendKeys → confirmedHeight? chain y = none := by
  have claims := h.mem_claimants_iff.2 ⟨hx, hk⟩
  have free : l.isConflicted chain x = false := by
    rw [depthOf_of_unconfirmed hu] at hd
    cases hc : l.isConflicted chain x with
    | false => rfl
    | true =>
      rw [hc, if_pos rfl] at hd
      omega
  have won := activeSpender?_of_not_conflicted claims (h.hash_eq hx) hk free
  refine ⟨won, fun b y hy hyk => ?_⟩
  cases hc : confirmedHeight? chain y with
  | none => rfl
  | some height =>
    -- then a confirmed claimant would have won
    obtain ⟨w, e, hw, hmem, he⟩ := activeSpender?_of_confirmed
      (h.mem_claimants_iff.2 ⟨hy, hyk⟩) (by rw [hc]; rfl)
    obtain rfl := Option.some.inj (hw.symm.trans won)
    obtain rfl := Option.some.inj (hx.symm.trans (h.mem_claimants_iff.1 hmem).1)
    rw [hu] at he
    cases he

/-- Of two live entries that claim the same key, each is confirmed. -/
theorem SpendIndexed.confirmed_of_live (h : SpendIndexed l) (hx : l.entry? a = some x)
    (hy : l.entry? b = some y) (hne : a ≠ b) (hk : key ∈ x.spendKeys) (hk' : key ∈ y.spendKeys)
    (hd : 0 ≤ l.depthOf chain x) (hd' : 0 ≤ l.depthOf chain y) :
    (confirmedHeight? chain x).isSome := by
  cases hu : confirmedHeight? chain x with
  | some height => rfl
  | none =>
    obtain ⟨won, unconfirmed⟩ := h.wins_of_live hx hk hu hd
    obtain ⟨won', -⟩ := h.wins_of_live hy hk' (unconfirmed b y hy hk') hd'
    exact absurd (Option.some.inj (won.symm.trans won')) hne

/-- An unconfirmed entry that shares a key with a confirmed one is conflicted. -/
theorem SpendIndexed.depthOf_of_rival (h : SpendIndexed l) (hx : l.entry? a = some x)
    (hy : l.entry? b = some y) (hk : key ∈ x.spendKeys) (hk' : key ∈ y.spendKeys)
    (hu : confirmedHeight? chain x = none) (hc : (confirmedHeight? chain y).isSome) :
    l.depthOf chain x = -1 := by
  have dead : ¬ 0 ≤ l.depthOf chain x := by
    intro hd
    have := (h.wins_of_live hx hk hu hd).2 b y hy hk'
    rw [this] at hc
    cases hc
  rw [depthOf_of_unconfirmed hu] at dead ⊢
  split
  · rfl
  · next hn =>
    rw [if_neg hn] at dead
    omega

/-! ## Rebroadcast -/

/-- The chain reports no block above its tip. -/
def WithinTip (chain : ChainView) : Prop :=
  ∀ block height, chain.heightOf? block = some height → height ≤ chain.tipHeight

/-- Nor is an entry confirmed above it. -/
theorem WithinTip.confirmedHeight?_le (hchain : WithinTip chain) {height : Int}
    (hc : confirmedHeight? chain x = some height) : height ≤ chain.tipHeight := by
  unfold confirmedHeight? at hc
  split at hc
  · cases hc
  · exact hchain _ _ hc

/-- An entry of depth 0 is not confirmed, since a confirmation counts. -/
theorem unconfirmed_of_depthOf (hchain : WithinTip chain) (hd : l.depthOf chain x = 0) :
    confirmedHeight? chain x = none := by
  cases hc : confirmedHeight? chain x with
  | none => rfl
  | some height =>
    have bounded := hchain.confirmedHeight?_le hc
    unfold depthOf at hd
    rw [hc] at hd
    dsimp only at hd
    omega

/-- No two of the entries that a rebroadcast offers claim the same key. -/
theorem SpendIndexed.pairwise_resendable (h : SpendIndexed l) (hchain : WithinTip chain)
    (time : Int64) :
    (l.resendable chain time).Pairwise fun x y => ∀ key ∈ x.spendKeys, key ∉ y.spendKeys := by
  unfold resendable
  rw [(List.mergeSort_perm _ _).pairwise_iff fun hxy key hy hx => hxy key hx hy]
  refine List.pairwise_filter.2 (SortedMap.pairwise_values fun a b x y hx hy hne => ?_)
  intro px py key hk hk'
  simp only [Bool.and_eq_true, beq_iff_eq] at px py
  have unconfirmed := unconfirmed_of_depthOf hchain px.2
  have live : 0 ≤ l.depthOf chain x := by omega
  have confirmed := h.confirmed_of_live hx hy hne hk hk' live (by omega)
  rw [unconfirmed] at confirmed
  cases confirmed

/-- Neither do two of those that the network accepts. -/
theorem SpendIndexed.pairwise_resendBefore (h : SpendIndexed l) (hchain : WithinTip chain)
    (time : Int64) (relay : Entry → Bool) :
    (l.resendBefore chain time relay).Pairwise fun a b => ∀ x y, l.entry? a = some x →
      l.entry? b = some y → ∀ key ∈ x.spendKeys, key ∉ y.spendKeys := by
  have found : ∀ x ∈ (l.resendable chain time).filter relay, l.entry? x.hash = some x := by
    intro x hx
    have hx := List.mem_mergeSort.1 (List.mem_filter.1 hx).1
    obtain ⟨a, ha⟩ := SortedMap.mem_values_iff.1 (List.mem_filter.1 hx).1
    have ha : l.entry? a = some x := ha
    rwa [h.hash_eq ha]
  refine List.pairwise_map.2 (((h.pairwise_resendable hchain time).filter relay).imp_of_mem ?_)
  intro x y hx hy hxy x' y' hx' hy'
  obtain rfl := Option.some.inj ((found x hx).symm.trans hx')
  obtain rfl := Option.some.inj ((found y hy).symm.trans hy')
  exact hxy

/-! ## Runs -/

/-- No output and no note is spent by two live records. -/
structure NoDoubleSpend (l : Ledger) (chain : ChainView) : Prop where
  /-- Of two records that claim the same key, both live, both are in the active chain. -/
  live : ∀ a b x y key, l.entry? a = some x → l.entry? b = some y → a ≠ b →
    key ∈ x.spendKeys → key ∈ y.spendKeys → 0 ≤ l.depthOf chain x → 0 ≤ l.depthOf chain y →
    (confirmedHeight? chain x).isSome ∧ (confirmedHeight? chain y).isSome
  /-- An unconfirmed record that shares a key with one in the active chain is conflicted. -/
  conflicted : ∀ a b x y key, l.entry? a = some x → l.entry? b = some y →
    key ∈ x.spendKeys → key ∈ y.spendKeys → confirmedHeight? chain x = none →
    (confirmedHeight? chain y).isSome → l.depthOf chain x = -1
  /-- No two records that are offered to the network again claim the same key. -/
  offered : ∀ time,
    (l.resendable chain time).Pairwise fun x y => ∀ key ∈ x.spendKeys, key ∉ y.spendKeys
  /-- Nor do two of those that are accepted, whichever these are. -/
  accepted : ∀ time relay, (l.resendBefore chain time relay).Pairwise fun a b =>
    ∀ x y, l.entry? a = some x → l.entry? b = some y → ∀ key ∈ x.spendKeys, key ∉ y.spendKeys

/-- After every run, and whatever chain the ledger is asked under then, so long as it reports no
block above its tip, no output and no note is spent by two live records. -/
theorem noDoubleSpend_after (settings : Settings) (store : Store)
    (steps : List (Surroundings × Operation)) (chain : ChainView) (hchain : WithinTip chain) :
    NoDoubleSpend ((empty settings store).after steps) chain := by
  have h := spendIndexed_after settings store steps
  constructor
  case live =>
    intro a b x y key hx hy hne hk hk' hd hd'
    exact ⟨h.confirmed_of_live hx hy hne hk hk' hd hd',
      h.confirmed_of_live hy hx hne.symm hk' hk hd' hd⟩
  case conflicted =>
    intro a b x y key hx hy hk hk' hu hc
    exact h.depthOf_of_rival hx hy hk hk' hu hc
  case offered => exact h.pairwise_resendable hchain
  case accepted => exact h.pairwise_resendBefore hchain

/-- Two transactions that spend the same output are in the ledger, the second in the only block of
the chain. -/
theorem noDoubleSpend_after_rivals :
    let spend : TxBody := { TxBody.blank with inputs := [⟨⟨Bytes.zero, 7⟩, default, 0⟩] }
    let first := Record.transaction spend.freeze
    let second := Record.transaction { spend with lockTime := 1 }.freeze
    let pushed := Simulation.Chain.empty.push "rival" [second]
    let around : Surroundings := ⟨Simulation.Keys.fresh.view, pushed.2.source, 0⟩
    WithinTip pushed.2.view ∧
      NoDoubleSpend ((empty Settings.default Store.empty).after
        [(around, .addEntry (.ofRecord first)),
          (around, .addEntry { Entry.ofRecord second with
            link := .toBlock pushed.1.block second.hash })])
        pushed.2.view := by
  intro spend first second pushed around
  have hchain : WithinTip pushed.2.view := by
    intro block height h
    obtain ⟨b, hb, rfl⟩ := Option.map_eq_some_iff.1 h
    obtain rfl := List.mem_singleton.1 (List.mem_of_find?_eq_some hb)
    exact Int.le_refl 0
  exact ⟨hchain, noDoubleSpend_after _ _ _ _ hchain⟩

end Ledger
end ShieldedLedger
