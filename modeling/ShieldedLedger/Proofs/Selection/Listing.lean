import Mathlib.Data.List.Nodup
import ShieldedLedger.Proofs.Amounts.Steady
import ShieldedLedger.Wallet.Selection

/-!
# Listing coins

To list coins is to ask for what the entries spend of ours, so it fills memos and changes nothing
else, and what it lists does not depend on whether coins have been listed before
(`steady_availableCoins`). A listing is made of the coins of one entry after the other, each of
which may be read off the ledger as it was at the start (`availableCoins_eq_ok_iff`,
`entryCoins_fst`). So where coins can be listed with those of coinbases, they can be listed
without, and the list is the same but for these (`availableCoins_withoutCoinbase`).

Where only trusted entries are listed, an unconfirmed coin comes from an entry that spends our own
outputs, and only if the settings let those be spent (`trusted_of_mem_availableCoins`).
-/

namespace ShieldedLedger
namespace Ledger

variable {I : Ledger → Prop} {keys : KeyView} {chain : ChainView} {l : Ledger} {q : CoinQuery}
  {hash : Hash256} {e : Entry} {coin : Coin} {coins : List Coin}

/-! ## The coins of an entry -/

/-- Whether a query lists coins of an entry that it trusts: a coinbase is mature and is asked for,
and the entry is not conflicted. -/
def lists (l : Ledger) (chain : ChainView) (q : CoinQuery) (e : Entry) : Bool :=
  !(e.record.isCoinbase && !q.includeCoinbase) &&
    !(e.record.isCoinbase && l.blocksToMaturity chain e > 0) && !(l.depthOf chain e < 0)

/-- An entry is listed if its depth is not negative and, if it is a coinbase, these are asked for
and its wait is over. -/
theorem lists_eq_true_iff : l.lists chain q e = true ↔ 0 ≤ l.depthOf chain e ∧
    (e.record.isCoinbase = true → q.includeCoinbase = true ∧ l.blocksToMaturity chain e ≤ 0) := by
  unfold lists
  cases e.record.isCoinbase <;> cases q.includeCoinbase <;> simp [and_comm]

/-- The coins of an entry that a query lists. -/
def coinsOf (l : Ledger) (keys : KeyView) (chain : ChainView) (q : CoinQuery) (e : Entry)
    (fromMe : Bool) : List Coin :=
  e.record.locatedOutputs.filterMap fun o => l.coin? keys chain q e fromMe o.1 o.2

/-- Whether an entry is trusted, if the query asks for that. -/
def heeds (keys : KeyView) (chain : ChainView) (q : CoinQuery) (hash : Hash256) : LedgerOp Bool :=
  if q.onlyConfirmed then isTrusted keys chain hash else pure true

/-- The coins of an entry are listed if the entry is heeded and the query lists it. -/
theorem entryCoins_eq (q : CoinQuery) (hash : Hash256) :
    entryCoins keys chain q hash = (do
      let l ← get
      match l.entry? hash with
      | none => return []
      | some e =>
        if (← heeds keys chain q hash) && l.lists chain q e then
          let fromMe ← isFromMe keys chain hash .all
          return l.coinsOf keys chain q e fromMe
        else return []) := by
  -- An entry is passed over for one reason after the other; `lists` is all of them at once.
  have tail : ∀ (l : Ledger) (e : Entry) (op : LedgerOp (List Coin)),
      (if e.record.isCoinbase && !q.includeCoinbase then return []
        else if e.record.isCoinbase && l.blocksToMaturity chain e > 0 then return []
        else if l.depthOf chain e < 0 then return []
        else op) = if l.lists chain q e then op else return [] := by
    intro l e op
    unfold lists
    split
    · next h => rw [h]; rfl
    next h =>
    split
    · next h' => rw [h', Bool.not_true, Bool.and_false]; rfl
    next h' =>
    rw [Bool.not_eq_true] at h h'
    rw [h, h']
    split
    · next h'' => rw [decide_eq_true h'']; rfl
    · next h'' => rw [decide_eq_false h'']; rfl
  unfold entryCoins heeds
  congr 1
  funext l
  cases l.entry? hash with
  | none => rfl
  | some e =>
    dsimp only
    cases q.onlyConfirmed with
    | false =>
      simp only [Bool.false_eq_true, if_false, tail, pure_bind, Bool.true_and]
      rfl
    | true =>
      simp only [if_true, tail]
      congr 1
      funext trusted
      cases trusted <;> rfl

/-! ## What listing and selecting change -/

section
variable (h : ∀ kind hash filter, Keeps I (amount keys chain kind hash filter))
include h

/-- Listing coins keeps what asking for the amounts of single entries keeps. -/
theorem keeps_availableCoins (q : CoinQuery) : Keeps I (availableCoins keys chain q) := by
  refine Keeps.bind Keeps.get fun _ => Keeps.foldlM (fun _ hash => ?_) _ _
  refine Keeps.bind ?_ fun _ => Keeps.pure _
  rw [entryCoins_eq]
  refine Keeps.bind Keeps.get fun l => ?_
  split
  · exact Keeps.pure _
  refine Keeps.bind ?_ fun trusted => ?_
  · unfold heeds
    split
    · exact keeps_isTrusted h hash
    · exact Keeps.pure _
  · split
    · exact Keeps.bind (Keeps.bind (h _ _ _) fun _ => Keeps.pure _) fun _ => Keeps.pure _
    · exact Keeps.pure _

/-- So does a selection. -/
theorem keeps_selectCoins {σ : Type} [RandomSource σ] (target : Amount)
    (control : Option CoinControl) (source : σ) :
    Keeps I (selectCoins keys chain target control source) := by
  refine Keeps.bind (keeps_ask _) fun _ => ?_
  refine Keeps.bind (keeps_availableCoins h _) fun _ => ?_
  refine Keeps.bind (keeps_availableCoins h _) fun _ => ?_
  refine Keeps.bind Keeps.get fun _ => ?_
  refine Keeps.bind (keeps_ask _) fun _ => ?_
  refine Keeps.bind (keeps_ask _) fun pick => ?_
  cases pick with
  | none => exact keeps_refuse _
  | some _ => exact Keeps.pure _

end

/-! ## What is listed -/

section
variable {l' : Ledger} {e' : Entry} (h : l'.markDirty = l.markDirty)
  (heq : e'.markDirty = e.markDirty)
include h heq

/-- Ledgers that differ in memos only list the same entries. -/
theorem lists_of_markDirty_eq (q : CoinQuery) : l'.lists chain q e' = l.lists chain q e := by
  have bare : ∀ (l : Ledger) (e : Entry), l.markDirty.lists chain q e.markDirty =
      l.lists chain q e := fun l e => by
    unfold lists
    rw [blocksToMaturity_markDirty, depthOf_markDirty]
    rfl
  rw [← bare, h, heq, bare]

/-- Ledgers that differ in memos only offer the same coins of an entry. -/
theorem coinsOf_of_markDirty_eq (q : CoinQuery) :
    l'.coinsOf keys chain q e' = l.coinsOf keys chain q e := by
  have bare : ∀ (l : Ledger) (e : Entry), l.markDirty.coinsOf keys chain q e.markDirty =
      l.coinsOf keys chain q e := fun l e => by
    funext fromMe
    unfold coinsOf coin?
    simp only [isSpent_markDirty, depthOf_markDirty]
    rfl
  rw [← bare, h, heq, bare]

end

/-- Whether a query heeds an entry does not depend on what is memoized. -/
theorem steady_heeds (q : CoinQuery) (hash : Hash256) :
    Steady keys chain (heeds keys chain q hash) := by
  unfold heeds
  split
  · exact .isTrusted hash
  · exact .pure _

/-- The coins listed of an entry do not depend on what is memoized. -/
theorem steady_entryCoins (q : CoinQuery) (hash : Hash256) :
    Steady keys chain (entryCoins keys chain q hash) := by
  rw [entryCoins_eq]
  refine .get_bind (fun {l l'} h => ?_) fun l => ?_
  · cases he : l.entry? hash with
    | none => rw [entry?_eq_none_of_markDirty_eq h he]
    | some e =>
      obtain ⟨e', he', heq⟩ := entry?_of_markDirty_eq h he
      rw [he']
      dsimp only
      rw [lists_of_markDirty_eq h heq, coinsOf_of_markDirty_eq h heq]
  · split
    · exact .pure _
    refine .bind (steady_heeds q hash) fun heeded => ?_
    split
    · exact .bind (.isFromMe hash .all) fun _ => .pure _
    · exact .pure _

/-- Listing coins does not change what is listed next, or any other answer. -/
theorem steady_availableCoins (q : CoinQuery) :
    Steady keys chain (availableCoins keys chain q) := by
  refine .get_bind (fun {l l'} h => ?_) fun l => ?_
  · rw [← keys_entries_markDirty, h, keys_entries_markDirty]
  · exact .foldlM (fun _ hash => .bind (steady_entryCoins q hash) fun _ => .pure _) _ _

/-- A listing succeeds if every entry's coins can be listed, and puts them together. -/
theorem availableCoins_eq_ok_iff : (availableCoins keys chain q l).1 = .ok coins ↔
    (∀ hash ∈ l.entries.keys, ∃ part, (entryCoins keys chain q hash l).1 = .ok part) ∧
      coins = l.entries.keys.flatMap fun hash =>
        ((entryCoins keys chain q hash l).1.toOption).getD [] := by
  have walked : ∀ (hashes : List Hash256) (found : List Coin),
      (hashes.foldlM (fun found hash => do
        return found ++ (← entryCoins keys chain q hash) : List Coin → _ → LedgerOp (List Coin))
          found l).1 = .ok coins ↔
        (∀ hash ∈ hashes, ∃ part, (entryCoins keys chain q hash l).1 = .ok part) ∧
          coins = found ++ hashes.flatMap fun hash =>
            ((entryCoins keys chain q hash l).1.toOption).getD [] := by
    intro hashes
    induction hashes with
    | nil =>
      intro found
      rw [List.flatMap_nil, List.append_nil]
      exact ⟨fun h => ⟨fun _ hmem => absurd hmem List.not_mem_nil, (Except.ok.inj h).symm⟩,
        fun h => congrArg Except.ok h.2.symm⟩
    | cons hash rest ih =>
      intro found
      have step : Steady keys chain (do
          return found ++ (← entryCoins keys chain q hash) : LedgerOp (List Coin)) :=
        .bind (steady_entryCoins q hash) fun _ => .pure _
      rw [List.foldlM_cons, step.bind_fst fun found => .foldlM (fun _ hash =>
        .bind (steady_entryCoins q hash) fun _ => .pure _) _ _,
        (steady_entryCoins q hash).bind_fst fun _ => .pure _]
      cases hpart : (entryCoins keys chain q hash l).1 with
      | error failure =>
        refine ⟨nofun, fun h => ?_⟩
        obtain ⟨part, hok⟩ := h.1 hash List.mem_cons_self
        exact nomatch hpart.symm.trans hok
      | ok part =>
        refine (ih (found ++ part)).trans ?_
        rw [List.forall_mem_cons, List.flatMap_cons, hpart, List.append_assoc]
        exact ⟨fun h => ⟨⟨⟨part, rfl⟩, h.1⟩, h.2⟩, fun h => ⟨h.1.2, h.2⟩⟩
  exact (walked l.entries.keys []).trans (by rw [List.nil_append])

/-- What a listing gives of an entry, all read off the ledger at the start. -/
theorem entryCoins_fst (he : l.entry? hash = some e) :
    (entryCoins keys chain q hash l).1 = (heeds keys chain q hash l).1.bind fun heeded =>
      if heeded && l.lists chain q e then
        (isFromMe keys chain hash .all l).1.map (l.coinsOf keys chain q e)
      else .ok [] := by
  have rest : ∀ heeded, Steady keys chain (if heeded && l.lists chain q e then do
      let fromMe ← isFromMe keys chain hash .all
      return l.coinsOf keys chain q e fromMe
    else return [] : LedgerOp (List Coin)) := fun heeded => by
    split
    · exact .bind (.isFromMe hash .all) fun _ => .pure _
    · exact .pure _
  rw [entryCoins_eq]
  show ((match l.entry? hash with
    | none => return []
    | some e => do
      let heeded ← heeds keys chain q hash
      if heeded && l.lists chain q e then
        let fromMe ← isFromMe keys chain hash .all
        return l.coinsOf keys chain q e fromMe
      else return [] : LedgerOp (List Coin)) l).1 = _
  rw [he]
  dsimp only
  rw [(steady_heeds q hash).bind_fst rest]
  congr 1
  funext heeded
  split
  · rw [(Steady.isFromMe hash .all).bind_fst fun _ => .pure _]
    cases (isFromMe keys chain hash .all l).1 <;> rfl
  · rfl

/-- Nothing is listed of an entry that is not heeded, or that the query does not list. -/
theorem entryCoins_eq_ok_iff {part : List Coin} (he : l.entry? hash = some e) :
    (entryCoins keys chain q hash l).1 = .ok part ↔
      ∃ heeded, (heeds keys chain q hash l).1 = .ok heeded ∧
        ((heeded && l.lists chain q e) = false ∧ part = [] ∨
          (heeded && l.lists chain q e) = true ∧ ∃ fromMe,
            (isFromMe keys chain hash .all l).1 = .ok fromMe ∧
              part = l.coinsOf keys chain q e fromMe) := by
  rw [entryCoins_fst he]
  cases (heeds keys chain q hash l).1 with
  | error failure => exact ⟨nofun, fun ⟨_, h, _⟩ => nomatch h⟩
  | ok heeded =>
    show (if heeded && l.lists chain q e then _ else _) = _ ↔ _
    split
    · next hlisted =>
      constructor
      · intro h
        cases hf : (isFromMe keys chain hash .all l).1 with
        | error failure =>
          rw [hf] at h
          cases h
        | ok fromMe =>
          rw [hf] at h
          exact ⟨heeded, rfl, .inr ⟨hlisted, fromMe, rfl, (Except.ok.inj h).symm⟩⟩
      · rintro ⟨_, h, ⟨hnot, -⟩ | ⟨-, fromMe, hf, rfl⟩⟩
        · obtain rfl := Except.ok.inj h
          exact nomatch hlisted.symm.trans hnot
        · rw [hf]
          rfl
    · next hlisted =>
      rw [Bool.not_eq_true] at hlisted
      constructor
      · exact fun h => ⟨heeded, rfl, .inl ⟨hlisted, (Except.ok.inj h).symm⟩⟩
      · rintro ⟨_, h, ⟨-, rfl⟩ | ⟨hnot, -⟩⟩
        · rfl
        · obtain rfl := Except.ok.inj h
          exact nomatch hlisted.symm.trans hnot

/-- An output makes a coin if it is ours, not spent, not locked, worth something unless that does
not matter, and admitted by the caller. -/
theorem coin?_eq_some_iff {fromMe : Bool} {outpoint : OutPoint} {o : TxOut} :
    l.coin? keys chain q e fromMe outpoint o = some coin ↔
      (keys.ownership o.script ≠ .foreign ∧ l.isSpent chain outpoint = false ∧
        l.isLocked outpoint = false ∧ (0 < o.value ∨ q.includeZero = true) ∧
        q.control.all (·.admits outpoint) = true) ∧
      coin = { outpoint, value := o.value, depth := l.depthOf chain e,
               spendable := keys.ownership o.script == .spendable ||
                 q.control.any (·.allowWatchOnly),
               isCoinbase := e.record.isCoinbase, fromMe } := by
  have worth : (o.value ≤ 0 && !q.includeZero) = false ↔ 0 < o.value ∨ q.includeZero = true := by
    cases q.includeZero <;> simp
  have unadmitted : (!q.control.all (·.admits outpoint)) = false ↔
      q.control.all (·.admits outpoint) = true := by simp
  unfold coin?
  dsimp only
  split
  · next hnot =>
    refine ⟨nofun, fun ⟨⟨ours, unspent, unlocked, value, admitted⟩, _⟩ => ?_⟩
    rw [unspent, unlocked, worth.2 value, unadmitted.2 admitted, beq_eq_false_iff_ne.2 ours] at hnot
    exact absurd hnot (by decide)
  · next hlisted =>
    simp only [Bool.not_eq_true, Bool.or_eq_false_iff] at hlisted
    obtain ⟨⟨⟨⟨ours, unspent⟩, unlocked⟩, value⟩, admitted⟩ := hlisted
    rw [Option.some.injEq, eq_comm]
    exact ⟨fun h => ⟨⟨ne_of_beq_false ours, unspent, unlocked, worth.1 value,
      unadmitted.1 admitted⟩, h⟩, And.right⟩

/-- A coin of an entry is made by one of its outputs. -/
theorem mem_coinsOf_iff {fromMe : Bool} : coin ∈ l.coinsOf keys chain q e fromMe ↔
    ∃ o ∈ e.record.locatedOutputs, l.coin? keys chain q e fromMe o.1 o.2 = some coin :=
  List.mem_filterMap

/-- The coins of an entry are of a coinbase if the entry is one. -/
theorem isCoinbase_of_mem_coinsOf {fromMe : Bool} (h : coin ∈ l.coinsOf keys chain q e fromMe) :
    coin.isCoinbase = e.record.isCoinbase := by
  obtain ⟨o, -, ho⟩ := mem_coinsOf_iff.1 h
  obtain ⟨-, rfl⟩ := coin?_eq_some_iff.1 ho
  rfl

/-- Where a coin that is listed comes from. -/
theorem exists_of_mem_availableCoins (h : (availableCoins keys chain q l).1 = .ok coins)
    (hc : coin ∈ coins) : ∃ hash e, l.entry? hash = some e ∧
      (heeds keys chain q hash l).1 = .ok true ∧ l.lists chain q e = true ∧
      (isFromMe keys chain hash .all l).1 = .ok coin.fromMe ∧
      ∃ o ∈ e.record.locatedOutputs, l.coin? keys chain q e coin.fromMe o.1 o.2 = some coin := by
  obtain ⟨parts, rfl⟩ := availableCoins_eq_ok_iff.1 h
  obtain ⟨hash, hmem, hc⟩ := List.mem_flatMap.1 hc
  obtain ⟨e, he⟩ := SortedMap.mem_keys_iff.1 hmem
  obtain ⟨part, hpart⟩ := parts hash hmem
  rw [hpart] at hc
  have hc : coin ∈ part := hc
  rcases (entryCoins_eq_ok_iff he).1 hpart with ⟨heeded, hh, ⟨-, rfl⟩ | ⟨hlisted, fromMe, hf, rfl⟩⟩
  · exact absurd hc List.not_mem_nil
  · obtain ⟨rfl, hlisted⟩ := Bool.and_eq_true_iff.1 hlisted
    obtain ⟨o, ho, hcoin⟩ := mem_coinsOf_iff.1 hc
    obtain ⟨-, rfl⟩ := coin?_eq_some_iff.1 hcoin
    exact ⟨hash, e, he, hh, hlisted, hf, o, ho, hcoin⟩

/-- All coins are listed of an entry that is heeded and that the query lists. -/
theorem exists_coinsOf_subset (h : (availableCoins keys chain q l).1 = .ok coins)
    (he : l.entry? hash = some e) (heeded : (heeds keys chain q hash l).1 = .ok true)
    (listed : l.lists chain q e = true) :
    ∃ fromMe, ∀ coin ∈ l.coinsOf keys chain q e fromMe, coin ∈ coins := by
  obtain ⟨parts, rfl⟩ := availableCoins_eq_ok_iff.1 h
  have hmem := SortedMap.mem_keys_iff.2 ⟨e, he⟩
  obtain ⟨part, hpart⟩ := parts hash hmem
  rcases (entryCoins_eq_ok_iff he).1 hpart with ⟨_, hh, ⟨hnot, -⟩ | ⟨-, fromMe, -, rfl⟩⟩
  · obtain rfl := Except.ok.inj (hh.symm.trans heeded)
    exact nomatch hnot.symm.trans listed
  · refine ⟨fromMe, fun coin hcoin => List.mem_flatMap.2 ⟨hash, hmem, ?_⟩⟩
    rw [hpart]
    exact hcoin

/-- A listing that asks for coinbases can also be given without them. -/
theorem availableCoins_withoutCoinbase (hq : q.includeCoinbase = true)
    (h : (availableCoins keys chain q l).1 = .ok coins) :
    (availableCoins keys chain { q with includeCoinbase := false } l).1 =
      .ok (coins.filter fun coin => !coin.isCoinbase) := by
  obtain ⟨parts, rfl⟩ := availableCoins_eq_ok_iff.1 h
  have part : ∀ hash ∈ l.entries.keys,
      (entryCoins keys chain { q with includeCoinbase := false } hash l).1 =
        .ok ((((entryCoins keys chain q hash l).1.toOption).getD []).filter
          fun coin => !coin.isCoinbase) := by
    intro hash hmem
    obtain ⟨e, he⟩ := SortedMap.mem_keys_iff.1 hmem
    have listed : l.lists chain { q with includeCoinbase := false } e =
        (l.lists chain q e && !e.record.isCoinbase) := by
      unfold lists
      rw [hq]
      cases e.record.isCoinbase <;> simp
    obtain ⟨found, hfound⟩ := parts hash hmem
    rw [hfound]
    rcases (entryCoins_eq_ok_iff he).1 hfound with
      ⟨heeded, hh, ⟨hnot, rfl⟩ | ⟨hlisted, fromMe, hf, rfl⟩⟩
    · refine (entryCoins_eq_ok_iff he).2 ⟨heeded, hh, .inl ⟨?_, rfl⟩⟩
      rw [listed, ← Bool.and_assoc, hnot, Bool.false_and]
    · refine (entryCoins_eq_ok_iff he).2 ⟨heeded, hh, ?_⟩
      rw [listed, ← Bool.and_assoc, hlisted, Bool.true_and]
      cases hc : e.record.isCoinbase with
      | true =>
        refine .inl ⟨rfl, List.filter_eq_nil_iff.2 fun coin hcoin => ?_⟩
        rw [isCoinbase_of_mem_coinsOf hcoin, hc]
        exact Bool.false_ne_true
      | false =>
        refine .inr ⟨rfl, fromMe, hf, List.filter_eq_self.2 fun coin hcoin => ?_⟩
        rw [isCoinbase_of_mem_coinsOf hcoin, hc]
        rfl
  refine availableCoins_eq_ok_iff.2 ⟨fun hash hmem => ⟨_, part hash hmem⟩, ?_⟩
  rw [List.filter_flatMap]
  exact List.flatMap_congr fun hash hmem => by rw [part hash hmem]; rfl

/-! ## Trusted coins -/

/-- Whether an entry is trusted, all read off the ledger as it is. -/
theorem isTrusted_fst (he : l.entry? hash = some e) : (isTrusted keys chain hash l).1 =
    if 1 ≤ l.depthOf chain e then .ok true
    else if l.depthOf chain e < 0 then .ok false
    else if l.settings.spendZeroConfChange then
      (isFromMe keys chain hash .all l).1.map fun fromMe => fromMe && l.spendsOnlyOurs keys e.record
    else .ok false := by
  unfold isTrusted
  show ((match l.entry? hash with
    | none => LedgerOp.refuse (.unknownEntry hash)
    | some e =>
      if l.depthOf chain e ≥ 1 then return true
      else if l.depthOf chain e < 0 then return false
      else if !l.settings.spendZeroConfChange then return false
      else do
        if !(← isFromMe keys chain hash .all) then return false
        else return l.spendsOnlyOurs keys e.record : LedgerOp Bool) l).1 = _
  rw [he]
  dsimp only
  split
  · rfl
  split
  · rfl
  cases l.settings.spendZeroConfChange with
  | false => rfl
  | true =>
    simp only [Bool.not_true, Bool.false_eq_true, if_false, if_true]
    rw [(Steady.isFromMe hash .all).bind_fst fun fromMe => by split <;> exact .pure _]
    cases (isFromMe keys chain hash .all l).1 with
    | error failure => rfl
    | ok fromMe => cases fromMe <;> rfl

/-- An entry is trusted if it is confirmed, or if it is not conflicted and spends our own outputs
and nobody else's, where the settings let those be spent unconfirmed. -/
theorem isTrusted_eq_ok_true_iff (he : l.entry? hash = some e) :
    (isTrusted keys chain hash l).1 = .ok true ↔ 1 ≤ l.depthOf chain e ∨
      l.depthOf chain e = 0 ∧ l.settings.spendZeroConfChange = true ∧
        (isFromMe keys chain hash .all l).1 = .ok true ∧
        l.spendsOnlyOurs keys e.record = true := by
  rw [isTrusted_fst he]
  split
  · next h => exact iff_of_true rfl (.inl h)
  next hdepth =>
  split
  · next hneg => exact ⟨nofun, fun h => absurd h (by omega)⟩
  next hneg =>
  have zero : l.depthOf chain e = 0 := by omega
  rw [zero]
  cases l.settings.spendZeroConfChange with
  | false => simp
  | true =>
    cases (isFromMe keys chain hash .all l).1 with
    | error failure => simp [Except.map]
    | ok fromMe => cases fromMe <;> simp [Except.map]

/-- Where only trusted entries are listed, a coin is confirmed, or it comes from an entry that
spends our own outputs, and the settings let those be spent unconfirmed. No coin is conflicted. -/
theorem trusted_of_mem_availableCoins (hq : q.onlyConfirmed = true)
    (h : (availableCoins keys chain q l).1 = .ok coins) (hc : coin ∈ coins) :
    1 ≤ coin.depth ∨
      coin.depth = 0 ∧ coin.fromMe = true ∧ l.settings.spendZeroConfChange = true := by
  obtain ⟨hash, e, he, heeded, -, hf, o, -, hcoin⟩ := exists_of_mem_availableCoins h hc
  obtain ⟨-, hcoin⟩ := coin?_eq_some_iff.1 hcoin
  have depth : coin.depth = l.depthOf chain e := by rw [hcoin]
  have trusted : (isTrusted keys chain hash l).1 = .ok true := by
    unfold heeds at heeded
    rwa [hq, if_pos rfl] at heeded
  rw [depth]
  refine ((isTrusted_eq_ok_true_iff he).1 trusted).imp_right ?_
  exact fun ⟨hzero, hchange, hown, _⟩ => ⟨hzero, Except.ok.inj (hf.symm.trans hown), hchange⟩

/-! ## Distinct coins -/

/-- The outputs of a record have different places, unless there are more than a place can tell
apart. -/
theorem nodup_locatedOutputs {r : Record} (h : r.outputs.length ≤ UInt32.size) :
    (r.locatedOutputs.map (·.1)).Nodup := by
  have places : r.locatedOutputs.map (·.1) =
      (List.range' 0 r.outputs.length).map fun n => (⟨r.hash, UInt32.ofNat n⟩ : OutPoint) := by
    rw [← List.zipIdx_map_snd, List.map_map]
    unfold Record.locatedOutputs
    rw [List.map_map]
    rfl
  rw [places]
  refine List.Nodup.map_on (fun m hm n hn hmn => ?_) List.nodup_range'
  have hm := (List.mem_range'_1.1 hm).2
  have hn := (List.mem_range'_1.1 hn).2
  have same := congrArg (fun o : OutPoint => o.index.toNat) hmn
  simp only [UInt32.toNat_ofNat'] at same
  have size : UInt32.size = 2 ^ 32 := rfl
  omega

/-- A coin lies at an output of its entry. -/
theorem outpoints_coinsOf_sublist (fromMe : Bool) :
    ((l.coinsOf keys chain q e fromMe).map (·.outpoint)).Sublist
      (e.record.locatedOutputs.map (·.1)) := by
  unfold coinsOf
  induction e.record.locatedOutputs with
  | nil => exact .slnil
  | cons o rest ih =>
    rw [List.filterMap_cons, List.map_cons]
    split
    · exact ih.cons _
    · next coin hcoin =>
      obtain ⟨-, rfl⟩ := coin?_eq_some_iff.1 hcoin
      exact ih.cons_cons _

/-- In a ledger that finds its entries by their hashes no output is listed twice. -/
theorem nodup_availableCoins (hhash : ∀ {hash e}, l.entry? hash = some e →
      e.hash = hash ∧ e.record.outputs.length ≤ UInt32.size)
    (h : (availableCoins keys chain q l).1 = .ok coins) : (coins.map (·.outpoint)).Nodup := by
  obtain ⟨parts, rfl⟩ := availableCoins_eq_ok_iff.1 h
  have located : ∀ hash ∈ l.entries.keys, ∃ e, l.entry? hash = some e ∧
      ((((entryCoins keys chain q hash l).1.toOption).getD []).map (·.outpoint)).Sublist
        (e.record.locatedOutputs.map (·.1)) := by
    intro hash hmem
    obtain ⟨e, he⟩ := SortedMap.mem_keys_iff.1 hmem
    obtain ⟨part, hpart⟩ := parts hash hmem
    refine ⟨e, he, ?_⟩
    rw [hpart]
    rcases (entryCoins_eq_ok_iff he).1 hpart with ⟨_, -, ⟨-, rfl⟩ | ⟨-, fromMe, -, rfl⟩⟩
    · exact List.nil_sublist _
    · exact outpoints_coinsOf_sublist fromMe
  have hashOf : ∀ hash ∈ l.entries.keys, ∀ outpoint ∈
      (((entryCoins keys chain q hash l).1.toOption).getD []).map (·.outpoint),
      outpoint.hash = hash := by
    intro hash hmem outpoint houtpoint
    obtain ⟨e, he, sub⟩ := located hash hmem
    obtain ⟨⟨_, o⟩, ho, rfl⟩ := List.mem_map.1 (sub.subset houtpoint)
    unfold Record.locatedOutputs at ho
    obtain ⟨_, -, ho⟩ := List.mem_map.1 ho
    rw [← (Prod.mk.inj ho).1]
    exact (hhash he).1
  rw [List.map_flatMap]
  refine List.nodup_flatMap.2 ⟨fun hash hmem => ?_, ?_⟩
  · obtain ⟨e, he, sub⟩ := located hash hmem
    exact sub.nodup (nodup_locatedOutputs (hhash he).2)
  · refine l.entries.nodup_keys.imp_of_mem fun {a b} ha hb hab outpoint h h' => hab ?_
    rw [← hashOf a ha outpoint h, hashOf b hb outpoint h']

end Ledger
end ShieldedLedger
