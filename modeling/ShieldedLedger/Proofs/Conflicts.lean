import Mathlib.Data.Finset.Dedup
import Mathlib.Data.Finset.Order
import Mathlib.Logic.Relation
import ShieldedLedger.Proofs.DoubleSpend
import ShieldedLedger.Simulation.Chain
import ShieldedLedger.Simulation.Keys

/-!
# Where conflicts end

A record outside of the active chain is dead as soon as it loses one of its keys. The key's winner
may be dead as well, having lost another key, so a dead record need not share a key with a live one,
and an output that counts as unspent may still be out of reach for the records that spend it
(`dead_winner`).

But an unconfirmed winner was inserted before whoever it wins from
(`SpendIndexed.winner_of_losesKey`). So from loser to winner the places in the order go down, and
after finitely many winners there is a live one (`SpendIndexed.exists_live`). A winner that is dead
claims a further key, which it lost (`SpendIndexed.winner_live_or_dead`), so of records that claim
one key each none is dead without a live rival.
-/

namespace ShieldedLedger

/-- The first item has the least rank, if what is before has no greater one. -/
theorem le_of_earliest? {α : Type} {before : α → α → Bool} {items : List α} {a : α} (rank : α → Int)
    (lower : ∀ a b, before a b = true → rank a ≤ rank b)
    (higher : ∀ a b, before a b = false → rank b ≤ rank a) (h : earliest? before items = some a) :
    ∀ b ∈ items, rank a ≤ rank b := by
  have least : ∀ (rest : List α) (best : α), ∀ b ∈ best :: rest,
      rank (rest.foldl (fun best b => if before b best then b else best) best) ≤ rank b := by
    intro rest
    induction rest with
    | nil =>
      intro best b hb
      rw [List.mem_singleton.1 hb]
      exact Int.le_refl _
    | cons c rest ih =>
      intro best b hb
      rw [List.foldl_cons]
      -- the better of the first two is no worse than either
      have next : rank (if before c best then c else best) ≤ rank best ∧
          rank (if before c best then c else best) ≤ rank c := by
        split
        · next hc => exact ⟨lower _ _ hc, Int.le_refl _⟩
        · next hc => exact ⟨Int.le_refl _, higher _ _ (Bool.not_eq_true _ ▸ hc)⟩
      have first := ih (if before c best then c else best) _ List.mem_cons_self
      rcases List.mem_cons.1 hb with rfl | hb
      · exact first.trans next.1
      · rcases List.mem_cons.1 hb with rfl | hb
        · exact first.trans next.2
        · exact ih _ b (List.mem_cons_of_mem _ hb)
  cases items with
  | nil => cases h
  | cons b rest =>
    obtain rfl := Option.some.inj h
    exact least rest b

section
variable {p q : Int × Hash256}

/-- What is before in the order of pairs has no greater first part. -/
theorem fst_le_of_lex_lt
    (h : (compareLex (compareOn (·.1)) (compareOn (·.2)) p q == .lt) = true) : p.1 ≤ q.1 := by
  have h : ((compare p.1 q.1).then (compare p.2 q.2) == .lt) = true := h
  cases hc : compare p.1 q.1 with
  | lt => exact Int.le_of_lt (Int.compare_eq_lt.1 hc)
  | eq => exact Int.le_of_eq (Int.compare_eq_eq.1 hc)
  | gt => rw [hc] at h; cases h

/-- What is not before has no smaller one. -/
theorem fst_le_of_not_lex_lt
    (h : (compareLex (compareOn (·.1)) (compareOn (·.2)) p q == .lt) = false) : q.1 ≤ p.1 := by
  have h : ((compare p.1 q.1).then (compare p.2 q.2) == .lt) = false := h
  cases hc : compare p.1 q.1 with
  | lt => rw [hc] at h; cases h
  | eq => exact Int.le_of_eq (Int.compare_eq_eq.1 hc).symm
  | gt => exact Int.le_of_lt (Int.compare_eq_gt.1 hc)

end

namespace Ledger

variable {l : Ledger} {chain : ChainView} {key : SpendKey} {a b : Hash256} {x y : Entry}

/-! ## Winners and losers -/

/-- The winner of a key claims it, and either is confirmed or was inserted before every other
claimant. -/
theorem activeSpender?_cases (hw : l.activeSpender? chain key = some b) :
    ∃ y, (b, y) ∈ l.claimants key ∧ ((confirmedHeight? chain y).isSome ∨
      ∀ a x, (a, x) ∈ l.claimants key → y.info.order ≤ x.info.order) := by
  unfold activeSpender? at hw
  dsimp only at hw
  split at hw
  · next height order w hfirst =>
    obtain rfl := Option.some.inj hw
    obtain ⟨⟨w', y⟩, hmem, hy⟩ := List.mem_filterMap.1 (mem_of_earliest? hfirst)
    obtain ⟨_, hconf, heq⟩ := Option.map_eq_some_iff.1 hy
    obtain ⟨-, -, rfl⟩ : _ ∧ _ ∧ _ := by simpa using heq
    exact ⟨y, hmem, .inl (by rw [hconf]; rfl)⟩
  · obtain ⟨⟨order, w⟩, hfirst, rfl⟩ := Option.map_eq_some_iff.1 hw
    obtain ⟨⟨w', y⟩, hmem, heq⟩ := List.mem_map.1 (mem_of_earliest? hfirst)
    obtain ⟨rfl, rfl⟩ := Prod.mk.inj heq
    have least := le_of_earliest? Prod.fst (fun p q => fst_le_of_lex_lt)
      (fun p q => fst_le_of_not_lex_lt) hfirst
    exact ⟨y, hmem, .inr fun a x hx => least _ (List.mem_map.2 ⟨(a, x), hx, rfl⟩)⟩

/-- The entry `a`, outside of the active chain, claims a key that `b` wins. -/
def LosesKey (l : Ledger) (chain : ChainView) (key : SpendKey) (a b : Hash256) : Prop :=
  ∃ x, l.entry? a = some x ∧ confirmedHeight? chain x = none ∧ key ∈ x.spendKeys ∧
    l.activeSpender? chain key = some b ∧ b ≠ a

/-- The entry `a`, outside of the active chain, claims something that `b` wins. -/
def LosesTo (l : Ledger) (chain : ChainView) (a b : Hash256) : Prop :=
  ∃ key, l.LosesKey chain key a b

/-- A winner claims the key too, and is confirmed or was inserted earlier. -/
theorem SpendIndexed.winner_of_losesKey (h : SpendIndexed l) (hx : l.entry? a = some x)
    (hlose : l.LosesKey chain key a b) :
    ∃ y, l.entry? b = some y ∧ key ∈ y.spendKeys ∧
      ((confirmedHeight? chain y).isSome ∨ y.info.order < x.info.order) := by
  obtain ⟨x', hx', -, hk, hw, hne⟩ := hlose
  obtain rfl := Option.some.inj (hx.symm.trans hx')
  obtain ⟨y, hmem, hy⟩ := activeSpender?_cases hw
  obtain ⟨hb, hyk⟩ := h.mem_claimants_iff.1 hmem
  refine ⟨y, hb, hyk, hy.imp_right fun least => ?_⟩
  have le := least a x (h.mem_claimants_iff.2 ⟨hx, hk⟩)
  have ne : y.info.order ≠ x.info.order := fun heq => hne (h.order_inj hb hx heq)
  omega

/-! ## Dead entries -/

/-- Outside of the active chain, and conflicted. -/
def IsDead (l : Ledger) (chain : ChainView) (e : Entry) : Prop :=
  confirmedHeight? chain e = none ∧ l.depthOf chain e = -1

/-- In the active chain, or unconfirmed and not conflicted. -/
def IsLive (l : Ledger) (chain : ChainView) (e : Entry) : Prop :=
  (confirmedHeight? chain e).isSome ∨ l.depthOf chain e = 0

/-- An entry that is not live is dead. -/
theorem isLive_or_isDead (l : Ledger) (chain : ChainView) (e : Entry) :
    l.IsLive chain e ∨ l.IsDead chain e := by
  cases hc : confirmedHeight? chain e with
  | some height => exact .inl (.inl (by rw [hc]; rfl))
  | none =>
    have depth := depthOf_of_unconfirmed (l := l) hc
    split at depth
    · exact .inr ⟨hc, depth⟩
    · exact .inl (.inr depth)

/-- A dead entry loses one of its keys. -/
theorem SpendIndexed.losesTo_of_isDead (h : SpendIndexed l) (hx : l.entry? a = some x)
    (hdead : l.IsDead chain x) : ∃ key b, l.LosesKey chain key a b := by
  obtain ⟨hu, hd⟩ := hdead
  have conflicted : l.isConflicted chain x = true := by
    rw [depthOf_of_unconfirmed hu] at hd
    cases hc : l.isConflicted chain x with
    | true => rfl
    | false =>
      rw [hc] at hd
      cases hd
  obtain ⟨key, hk, hlost⟩ := List.any_eq_true.1 conflicted
  cases hw : l.activeSpender? chain key with
  | none =>
    rw [hw] at hlost
    cases hlost
  | some b =>
    rw [hw] at hlost
    refine ⟨key, b, x, hx, hu, hk, hw, ?_⟩
    rw [← h.hash_eq hx]
    exact bne_iff_ne.1 hlost

/-- Outside of the active chain, an entry is free of conflicts exactly if no other claimant of what
it claims is confirmed or was inserted earlier. -/
theorem SpendIndexed.depthOf_eq_zero_iff (h : SpendIndexed l) (hx : l.entry? a = some x)
    (hu : confirmedHeight? chain x = none) : l.depthOf chain x = 0 ↔
      ∀ key ∈ x.spendKeys, ∀ b y, l.entry? b = some y → b ≠ a → key ∈ y.spendKeys →
        confirmedHeight? chain y = none ∧ ¬ y.info.order < x.info.order := by
  constructor
  · intro hd key hk b y hy _ hyk
    obtain ⟨won, unconfirmed⟩ := h.wins_of_live hx hk hu (Int.le_of_eq hd.symm)
    refine ⟨unconfirmed b y hy hyk, ?_⟩
    obtain ⟨x', hmem, first⟩ := activeSpender?_cases won
    obtain rfl := Option.some.inj (hx.symm.trans (h.mem_claimants_iff.1 hmem).1)
    rw [hu] at first
    exact Int.not_lt.2 (first.resolve_left nofun b y (h.mem_claimants_iff.2 ⟨hy, hyk⟩))
  · intro free
    refine (isLive_or_isDead l chain x).elim (fun hlive => ?_) fun hdead => ?_
    · rw [IsLive, hu] at hlive
      exact hlive.resolve_left nofun
    · obtain ⟨key, b, hlose⟩ := h.losesTo_of_isDead hx hdead
      obtain ⟨y, hy, hyk, hwon⟩ := h.winner_of_losesKey hx hlose
      obtain ⟨x', hx', -, hk, -, hne⟩ := hlose
      obtain rfl := Option.some.inj (hx.symm.trans hx')
      obtain ⟨hyu, later⟩ := free key hk b y hy hne hyk
      rw [hyu] at hwon
      exact absurd (hwon.resolve_left nofun) later

/-- A winner is live, or dead because it lost another key. -/
theorem SpendIndexed.winner_live_or_dead (h : SpendIndexed l) (hlose : l.LosesKey chain key a b)
    (hb : l.entry? b = some y) :
    l.IsLive chain y ∨
      l.IsDead chain y ∧ ∃ key' c, key' ∈ y.spendKeys ∧ key' ≠ key ∧ l.LosesKey chain key' b c := by
  refine (isLive_or_isDead l chain y).imp_right fun hdead => ⟨hdead, ?_⟩
  obtain ⟨key', c, y', hy', hu, hk, hw, hne⟩ := h.losesTo_of_isDead hb hdead
  obtain rfl := Option.some.inj (hb.symm.trans hy')
  refine ⟨key', c, hk, ?_, y, hb, hu, hk, hw, hne⟩
  rintro rfl
  obtain ⟨-, -, -, -, hw', -⟩ := hlose
  exact hne (Option.some.inj (hw.symm.trans hw'))

/-- From a loser, the winners lead to a live entry. -/
theorem SpendIndexed.exists_live (h : SpendIndexed l) (hlose : l.LosesTo chain a b) :
    ∃ c z, Relation.TransGen (l.LosesTo chain) a c ∧ l.entry? c = some z ∧ l.IsLive chain z := by
  -- no place in the order is below `-bound`, and the places of dead winners go down
  obtain ⟨bound, hbound⟩ := (l.entries.values.map fun e => -e.info.order).toFinset.exists_le
  have lowest : ∀ {a x}, l.entry? a = some x → 0 ≤ x.info.order + bound := by
    intro a x hx
    have held : x ∈ l.entries.values := SortedMap.mem_values_iff.2 ⟨a, hx⟩
    have := hbound _ (List.mem_toFinset.2 (List.mem_map_of_mem held))
    omega
  have lead : ∀ (n : Nat) {a b : Hash256} {x : Entry}, (x.info.order + bound).toNat = n →
      l.entry? a = some x → l.LosesTo chain a b →
      ∃ c z, Relation.TransGen (l.LosesTo chain) a c ∧ l.entry? c = some z ∧
        l.IsLive chain z := by
    intro n
    induction n using Nat.strongRecOn with
    | ind n ih =>
      rintro a b x hn hx ⟨key, hlose⟩
      obtain ⟨y, hb, -, hy⟩ := h.winner_of_losesKey hx hlose
      rcases h.winner_live_or_dead hlose hb with hlive | ⟨⟨hu, -⟩, key', c, -, -, hlose'⟩
      · exact ⟨b, y, .single ⟨key, hlose⟩, hb, hlive⟩
      · have earlier : y.info.order < x.info.order := by
          rw [hu] at hy
          exact hy.resolve_left nofun
        have := lowest hb
        obtain ⟨d, z, path, hd, hlive⟩ := ih _ (by omega) rfl hb ⟨key', hlose'⟩
        exact ⟨d, z, .head ⟨key, hlose⟩ path, hd, hlive⟩
  obtain ⟨x, hx, -⟩ := hlose.choose_spec
  exact lead _ rfl hx hlose

/-! ## Chains that report no block above their tip -/

/-- The depth of a confirmed entry counts the blocks from its own up to the tip. -/
theorem depthOf_of_confirmed {height : Int} (hc : confirmedHeight? chain x = some height) :
    l.depthOf chain x = chain.tipHeight - height + 1 := by
  unfold depthOf
  rw [hc]

/-- Depth -1 is that of the dead, and of what is in a block reported two above the tip. -/
theorem depthOf_eq_neg_one_iff : l.depthOf chain x = -1 ↔
    l.IsDead chain x ∨ confirmedHeight? chain x = some (chain.tipHeight + 2) := by
  cases hc : confirmedHeight? chain x with
  | none => exact ⟨fun hd => .inl ⟨hc, hd⟩, fun h => (h.resolve_right nofun).2⟩
  | some height =>
    rw [depthOf_of_confirmed hc, Option.some_inj]
    constructor
    · intro hd
      right
      omega
    · rintro (⟨hu, -⟩ | heq)
      · rw [hc] at hu
        cases hu
      · omega

/-- Dead entries are those of depth -1, for chains whose heights do not exceed the tip. -/
theorem isDead_iff (hchain : WithinTip chain) : l.IsDead chain x ↔ l.depthOf chain x = -1 := by
  rw [depthOf_eq_neg_one_iff, or_iff_left]
  intro hc
  have := hchain.confirmedHeight?_le hc
  omega

/-- A depth of 0 or more is that of the live. -/
theorem isLive_iff (hchain : WithinTip chain) : l.IsLive chain x ↔ 0 ≤ l.depthOf chain x := by
  constructor
  · rintro (hc | hd)
    · obtain ⟨height, hc⟩ := Option.isSome_iff_exists.1 hc
      have bounded := hchain.confirmedHeight?_le hc
      rw [depthOf_of_confirmed hc]
      omega
    · omega
  · intro hd
    refine (isLive_or_isDead l chain x).resolve_right fun hdead => ?_
    have := hdead.2
    omega

/-- What the claimants of a key that counts as unspent have in common: they are not live. -/
theorem SpendIndexed.not_isLive_of_unclaimed (h : SpendIndexed l) (hchain : WithinTip chain)
    (hkey : l.isClaimed chain key = false) (hy : l.entry? b = some y) (hk : key ∈ y.spendKeys) :
    ¬ l.IsLive chain y := by
  intro hlive
  have := List.any_eq_false.1 hkey _ (h.mem_claimants_iff.2 ⟨hy, hk⟩)
  exact this (decide_eq_true ((isLive_iff hchain).1 hlive))

/-! ## Runs -/

/-- How the conflict of the entry `a` is settled. -/
structure Settled (l : Ledger) (chain : ChainView) (a : Hash256) (x : Entry) : Prop where
  /-- It loses a key to an entry that is in the active chain or was inserted before it. -/
  loses : ∃ key b y, l.LosesKey chain key a b ∧ l.entry? b = some y ∧ key ∈ y.spendKeys ∧
    ((confirmedHeight? chain y).isSome ∨ y.info.order < x.info.order)
  /-- Whoever wins from it is live, or dead because of another key. -/
  winner : ∀ key b y, l.LosesKey chain key a b → l.entry? b = some y → l.IsLive chain y ∨
    l.IsDead chain y ∧ ∃ key' c, key' ∈ y.spendKeys ∧ key' ≠ key ∧ l.LosesKey chain key' b c
  /-- From loser to winner, one comes to a live entry. -/
  live : ∃ c z, Relation.TransGen (l.LosesTo chain) a c ∧ l.entry? c = some z ∧ l.IsLive chain z

/-- Every conflict is settled, from the lists of spenders being in step with the entries. -/
theorem SpendIndexed.settled (h : SpendIndexed l) (hx : l.entry? a = some x)
    (hdead : l.IsDead chain x) : l.Settled chain a x := by
  obtain ⟨key, b, hlose⟩ := h.losesTo_of_isDead hx hdead
  obtain ⟨y, hb, hk, hy⟩ := h.winner_of_losesKey hx hlose
  exact ⟨⟨key, b, y, hlose, hb, hk, hy⟩, fun _ _ _ => h.winner_live_or_dead,
    h.exists_live ⟨key, hlose⟩⟩

/-- Where conflicts end. After every run and under every chain view, an entry of depth -1 is in a
block that the view reports two above its tip, or its conflict is settled by a live entry, which is
found from loser to winner. If the view reports no block above its tip, the dead are the entries of
depth -1 and the live those of depth 0 or more; and if all that a dead entry claims counts as
unspent, it loses to a dead one that lost another key. -/
theorem conflicts_settled_after (settings : Settings) (store : Store)
    (steps : List (Surroundings × Operation)) (chain : ChainView) :
    let l := (empty settings store).after steps
    (∀ a x, l.entry? a = some x → l.depthOf chain x = -1 →
      l.Settled chain a x ∨ confirmedHeight? chain x = some (chain.tipHeight + 2)) ∧
    (WithinTip chain → ∀ a x, l.entry? a = some x →
      (l.IsDead chain x ↔ l.depthOf chain x = -1) ∧ (l.IsLive chain x ↔ 0 ≤ l.depthOf chain x) ∧
      (l.depthOf chain x = -1 → (∀ key ∈ x.spendKeys, l.isClaimed chain key = false) →
        ∃ key key' b c y, l.LosesKey chain key a b ∧ l.entry? b = some y ∧
          l.depthOf chain y = -1 ∧ key' ∈ y.spendKeys ∧ key' ≠ key ∧
          l.LosesKey chain key' b c)) := by
  intro l
  have h : SpendIndexed l := spendIndexed_after settings store steps
  refine ⟨fun a x hx hd => (depthOf_eq_neg_one_iff.1 hd).imp_left (h.settled hx),
    fun hchain a x hx => ⟨isDead_iff hchain, isLive_iff hchain, fun hd unspent => ?_⟩⟩
  have settled := h.settled hx ((isDead_iff hchain).2 hd)
  obtain ⟨key, b, y, hlose, hb, hk, -⟩ := settled.loses
  obtain ⟨x', hx', -, hkx, -, -⟩ := id hlose
  obtain rfl := Option.some.inj (hx.symm.trans hx')
  have dead := h.not_isLive_of_unclaimed hchain (unspent key hkx) hb hk
  obtain ⟨hdead, key', c, hk', hne, hlose'⟩ := (settled.winner key b y hlose hb).resolve_left dead
  exact ⟨key, key', b, c, y, hlose, hb, hdead.2, hk', hne, hlose'⟩

/-- A transaction that spends some outputs of one owner to another. -/
def spendingAll (prevouts : List OutPoint) (value : Amount) : Record :=
  .transaction { TxBody.blank with
    inputs := prevouts.map fun prevout => ⟨prevout, Simulation.unlockScript, 0xffffffff⟩
    outputs := [Simulation.payment Simulation.ourTag value] }.freeze

/-- The output that a first and a second transaction spend, and the one that the second and a third
do. -/
def sharedOutputs : OutPoint × OutPoint := (⟨Bytes.filled 32 0x77, 0⟩, ⟨Bytes.filled 32 0x88, 0⟩)

/-- The three of them are seen one after the other, all unconfirmed. -/
def threeInARow : Ledger :=
  (empty Settings.default Store.empty).after
    ([spendingAll [sharedOutputs.1] 1000, spendingAll [sharedOutputs.1, sharedOutputs.2] 900,
      spendingAll [sharedOutputs.2] 800].map fun r =>
        (⟨Simulation.Keys.fresh.view, Simulation.Chain.empty.source, 0⟩, .sync r none))

/-- A dead entry need not share a key with a live one. Of three transactions the second loses its
first key to the first transaction, but it still wins its second key from the third. So the third is
conflicted, no live entry shares a key with it, and what it spends counts as unspent. -/
theorem dead_winner :
    let third := spendingAll [sharedOutputs.2] 800
    ∃ x, threeInARow.entry? third.hash = some x ∧
      threeInARow.depthOf Simulation.Chain.empty.view x = -1 ∧
      (∀ key ∈ x.spendKeys, threeInARow.isClaimed Simulation.Chain.empty.view key = false) ∧
      ∀ b y, threeInARow.entry? b = some y → b ≠ third.hash →
        (∃ key ∈ x.spendKeys, key ∈ y.spendKeys) →
        threeInARow.depthOf Simulation.Chain.empty.view y = -1 := by
  intro third
  have computed : (threeInARow.entry? third.hash).any (fun x =>
      decide (threeInARow.depthOf Simulation.Chain.empty.view x = -1) &&
      (x.spendKeys.all fun key =>
        !threeInARow.isClaimed Simulation.Chain.empty.view key) &&
      threeInARow.entries.toList.all fun e =>
        decide (e.1 ≠ third.hash → (∃ key ∈ x.spendKeys, key ∈ e.2.spendKeys) →
          threeInARow.depthOf Simulation.Chain.empty.view e.2 = -1)) = true := by
    decide +kernel
  obtain ⟨x, hx, h⟩ := (Option.any_eq_true _ _).1 computed
  simp only [Bool.and_eq_true, decide_eq_true_eq, List.all_eq_true, Bool.not_eq_true'] at h
  obtain ⟨⟨hd, unspent⟩, others⟩ := h
  exact ⟨x, hx, hd, unspent, fun b y hy => others (b, y) (SortedMap.mem_toList_iff.2 hy)⟩

end Ledger
end ShieldedLedger
