import ShieldedLedger.Proofs.Rescan.Following
import ShieldedLedger.Proofs.Selection.Cover
import ShieldedLedger.Proofs.Selection.Listing
import ShieldedLedger.Simulation.Node

/-!
# Balances agree with the coin list

A balance and a listing of coins are two walks over the same entries. Both pass over entries that
are not trusted. Of the others the balance adds up what is available, which is nothing for a
coinbase that has not matured; the listing has no coins of such a coinbase, and otherwise the coins
of the outputs that are ours and not spent, but for locked ones and those without value. So where
nothing is locked, and the amounts are not out of date, each entry contributes the same to both
(`Ledger.worth_entryCoins`), and the balance is what the coins are worth (`Ledger.balances_agree`).
-/

namespace ShieldedLedger

/-! ## Adding up -/

/-- The amount of an outcome; 0 if there is none. -/
def amountOf {ε : Type} : Except ε Amount → Int
  | .ok value => value.toInt
  | .error _ => 0

/-- Amounts that are added up in range are all there, and the result is their exact sum. -/
theorem toInt_of_addingUp {ε α : Type} {f : α → Except ε Amount} {failure : ε} :
    ∀ {items : List α} {start v : Amount},
      items.foldlM (fun (total : Amount) item => do
        let value ← f item
        match total.addInRange value with
        | some sum => .ok sum
        | none => .error failure) start = .ok v →
      (∀ item ∈ items, ∃ value, f item = .ok value) ∧
        v.toInt = start.toInt + (items.map fun item => amountOf (f item)).sum
  | [], _, _, h => by
    obtain rfl := Except.ok.inj h
    exact ⟨nofun, (Int.add_zero _).symm⟩
  | item :: rest, start, v, h => by
    rw [List.foldlM_cons] at h
    obtain ⟨next, hnext, hrest⟩ := exists_of_bind_eq_ok h
    obtain ⟨value, hvalue, hadd⟩ := exists_of_bind_eq_ok hnext
    split at hadd
    · next sum hsum =>
      obtain rfl := Except.ok.inj hadd
      obtain ⟨-, -, exact⟩ := Amount.addInRange_eq_some_iff.1 hsum
      obtain ⟨hall, hv⟩ := toInt_of_addingUp hrest
      refine ⟨List.forall_mem_cons.2 ⟨⟨value, hvalue⟩, hall⟩, ?_⟩
      rw [List.map_cons, List.sum_cons, hvalue, hv, exact, Int.add_assoc]
      rfl
    · cases hadd

/-- What is added up is the exact sum, and every item has an amount. -/
theorem toInt_of_sumAmounts {α : Type} {quantity : String} {f : α → Except LedgerError Amount}
    {items : List α} {v : Amount} (h : sumAmounts quantity f items = .ok v) :
    (∀ item ∈ items, ∃ value, f item = .ok value) ∧
      v.toInt = (items.map fun item => amountOf (f item)).sum := by
  obtain ⟨hall, hv⟩ := toInt_of_addingUp h
  exact ⟨hall, hv.trans (Int.zero_add _)⟩

/-- A sum over some of the items is one over all to which the others add nothing. -/
theorem sum_map_filter {α : Type} (p : α → Bool) (f : α → Int) (items : List α) :
    ((items.filter p).map f).sum = (items.map fun item => if p item then f item else 0).sum := by
  rw [List.sum_map_ite]
  simp

/-- Coins that are put together are worth the sum of what their parts are worth. -/
theorem worth_flatMap {α : Type} (f : α → List Coin) (items : List α) :
    worth (items.flatMap f) = (items.map fun item => worth (f item)).sum := by
  induction items with
  | nil => rfl
  | cons item rest ih =>
    rw [List.flatMap_cons, List.map_cons, List.sum_cons, worth_append, ih]

namespace Ledger

variable {keys : KeyView} {chain : ChainView} {l : Ledger} {hash : Hash256} {e : Entry}
  {part : OwnershipFilter} {v : Amount}

/-- A walk whose steps are steady goes by the ledger at the start. -/
theorem Steady.foldlM_fst {α β : Type} {f : β → α → LedgerOp β}
    (hf : ∀ b a, Steady keys chain (f b a)) : ∀ (items : List α) (b : β),
      (items.foldlM f b l).1 = items.foldlM (fun b a => (f b a l).1) b
  | [], _ => rfl
  | a :: rest, b => by
    rw [List.foldlM_cons, List.foldlM_cons, (hf b a).bind_fst fun b => .foldlM hf rest b]
    show _ = ((f b a l).1.bind fun b => rest.foldlM (fun b a => (f b a l).1) b)
    congr 1
    funext b
    exact foldlM_fst hf rest b

/-- Adds an amount to a balance. -/
def addToBalance (total value : Amount) : LedgerOp Amount :=
  match total.addInRange value with
  | some sum => return sum
  | none => LedgerOp.refuse (.value (.outOfRange "balance"))

/-- Adding to a balance goes by no memo. -/
theorem steady_addToBalance (total value : Amount) :
    Steady keys chain (addToBalance total value) := by
  unfold addToBalance
  split
  · exact .pure _
  · exact .refuse _

/-- Adding to a balance gives the sum, or an error if it is out of range. -/
theorem addToBalance_fst (total value : Amount) : (addToBalance total value l).1 =
    match total.addInRange value with
    | some sum => .ok sum
    | none => .error (.error (.value (.outOfRange "balance"))) := by
  unfold addToBalance
  cases total.addInRange value <;> rfl

/-- What is added up over all entries is the exact sum over them. -/
theorem toInt_of_sumEntries {f : Hash256 → LedgerOp Amount}
    (hf : ∀ hash, Steady keys chain (f hash)) (h : (sumEntries f l).1 = .ok v) :
    (∀ hash ∈ l.entries.keys, ∃ value, (f hash l).1 = .ok value) ∧
      v.toInt = (l.entries.keys.map fun hash => amountOf (f hash l).1).sum := by
  have h : (l.entries.keys.foldlM (fun total hash => f hash >>= addToBalance total : Amount → _ → _)
      0 l).1 = .ok v := h
  have step (total : Amount) (hash : Hash256) : ((f hash >>= addToBalance total) l).1 =
      (f hash l).1 >>= fun value =>
        match total.addInRange value with
        | some sum => .ok sum
        | none => .error (.error (.value (.outOfRange "balance"))) := by
    rw [(hf hash).bind_fst (steady_addToBalance total)]
    simp only [addToBalance_fst]
    rfl
  rw [Steady.foldlM_fst fun total hash => .bind (hf hash) (steady_addToBalance total)] at h
  simp only [step] at h
  obtain ⟨hall, hv⟩ := toInt_of_addingUp h
  exact ⟨hall, hv.trans (Int.zero_add _)⟩

/-! ## What an entry has available -/

/-- No amount is memoized if every entry that is listed has an empty memo. -/
theorem unmemoized_of_toList
    (h : ∀ entry ∈ l.entries.toList, entry.2.memo = AmountMemo.blank) : l.Unmemoized :=
  fun _ _ he => h _ (SortedMap.mem_toList_iff.2 he)

/-- The value of the outputs of a kind that an entry has and that are not spent; nothing while a
coinbase waits to mature. -/
def availableWorth (l : Ledger) (keys : KeyView) (chain : ChainView) (part : OwnershipFilter)
    (e : Entry) : Int :=
  if l.blocksToMaturity chain e ≤ 0 then
    ((e.record.locatedOutputs.filter fun o => !l.isSpent chain o.1).map fun o =>
      amountOf (outputCredit keys part o.2)).sum
  else 0

/-- Where nothing is memoized, that is the available amount, and all unspent outputs of the entry
are in range if there is one. -/
theorem available_of_unmemoized (hl : l.Unmemoized) (he : l.entry? hash = some e)
    (hpart : part ≠ .all) (h : (amount keys chain .available hash part l).1 = .ok v) :
    v.toInt = l.availableWorth keys chain part e ∧
      (l.blocksToMaturity chain e ≤ 0 → ∀ o ∈ e.record.locatedOutputs,
        l.isSpent chain o.1 = false → ∃ value, outputCredit keys part o.2 = .ok value) := by
  unfold availableWorth
  cases hhas : l.hasAmount chain .available e with
  | false =>
    have waits : ¬ l.blocksToMaturity chain e ≤ 0 := of_decide_eq_false hhas
    rw [amount_fst_of_not he hhas] at h
    obtain rfl := Except.ok.inj h
    rw [if_neg waits]
    exact ⟨rfl, fun h => absurd h waits⟩
  | true =>
    have mature : l.blocksToMaturity chain e ≤ 0 := of_decide_eq_true hhas
    have empty : (e.memo.get .available).part part = none := by
      rw [hl hash e he]
      cases part <;> rfl
    rw [amount_fst he hhas, OwnedAmounts.total_single _ hpart,
      OwnedAmounts.remember_of_part_eq_none empty] at h
    cases hsum : OwnedAmounts.addOutcome AmountKind.available.quantity (.ok 0)
        (l.freshAmount keys chain .available e part) with
    | error failure =>
      rw [hsum] at h
      cases h
    | ok total =>
      rw [hsum] at h
      obtain rfl := Except.ok.inj h
      obtain ⟨hall, hv⟩ :=
        toInt_of_sumAmounts (OwnedAmounts.addOutcome_zero_eq_ok_iff.1 hsum).1
      rw [if_pos mature]
      refine ⟨hv, fun _ o ho hunspent => hall o (List.mem_filter.2 ⟨ho, ?_⟩)⟩
      rw [hunspent]
      rfl

/-! ## Balances -/

/-- What an entry adds to a balance. -/
def trustedAmount (keys : KeyView) (chain : ChainView) (part : OwnershipFilter) (hash : Hash256) :
    LedgerOp Amount := do
  if ← isTrusted keys chain hash then amount keys chain .available hash part else return 0

/-- What an entry adds to a balance does not depend on what is memoized. -/
theorem steady_trustedAmount (hash : Hash256) :
    Steady keys chain (trustedAmount keys chain part hash) := by
  refine .bind (.isTrusted hash) fun trusted => ?_
  split
  · exact .amount _ hash part
  · exact .pure 0

/-- It adds what it has available, if it is trusted. -/
theorem trustedAmount_eq_ok_iff : (trustedAmount keys chain part hash l).1 = .ok v ↔
    (isTrusted keys chain hash l).1 = .ok false ∧ v = 0 ∨
      (isTrusted keys chain hash l).1 = .ok true ∧
        (amount keys chain .available hash part l).1 = .ok v := by
  have read : (trustedAmount keys chain part hash l).1 = (isTrusted keys chain hash l).1.bind
      fun trusted => if trusted then (amount keys chain .available hash part l).1 else .ok 0 := by
    unfold trustedAmount
    rw [(Steady.isTrusted hash).bind_fst fun trusted => by
      split
      · exact .amount _ hash part
      · exact .pure 0]
    congr 1
    funext trusted
    cases trusted <;> rfl
  rw [read]
  cases (isTrusted keys chain hash l).1 with
  | error failure => exact ⟨nofun, nofun⟩
  | ok trusted => cases trusted <;> simp [Except.bind, eq_comm]

/-- The filter counts what is ours if its being spendable or not is wanted. -/
structure IsAbout (part : OwnershipFilter) (wanted : Bool → Bool) : Prop where
  single : part ≠ .all
  counts : ∀ ownership, part.counts ownership =
    (ownership != .foreign && wanted (ownership == .spendable))

/-- Of what is ours, the spendable part is what can be spent. -/
theorem isAbout_spendable : IsAbout .spendable id :=
  ⟨nofun, fun ownership => by cases ownership <;> rfl⟩

/-- Of what is ours, the watch-only part is what cannot be spent. -/
theorem isAbout_watchOnly : IsAbout .watchOnly not :=
  ⟨nofun, fun ownership => by cases ownership <;> rfl⟩

section
variable {wanted : Bool → Bool} {fromMe : Bool} (habout : IsAbout part wanted)
include habout

/-- The coin of an output that is not spent is worth what the output credits. If the output makes no
coin though it is ours, it has no value. -/
theorem worth_coin? {outpoint : OutPoint} {o : TxOut} {value : Amount}
    (hunlocked : ∀ outpoint, l.isLocked outpoint = false)
    (hunspent : l.isSpent chain outpoint = false)
    (hcredit : outputCredit keys part o = .ok value) :
    worth ((l.coin? keys chain ⟨true, false, true, none⟩ e fromMe outpoint o).toList.filter
      fun coin => wanted coin.spendable) = value.toInt := by
  unfold outputCredit at hcredit
  split at hcredit
  · cases hcredit
  next hrange =>
  have hrange := (Amount.inRange_iff.1 (by simpa using hrange)).1
  obtain rfl := Except.ok.inj hcredit
  rw [habout.counts]
  cases hcoin : l.coin? keys chain ⟨true, false, true, none⟩ e fromMe outpoint o with
  | some coin =>
    obtain ⟨⟨known, -⟩, rfl⟩ := coin?_eq_some_iff.1 hcoin
    rw [bne_iff_ne.2 known, Bool.true_and]
    simp only [Option.any_none, Bool.or_false, Option.toList_some, List.filter_singleton]
    cases wanted (keys.ownership o.script == .spendable) with
    | true => exact Int.add_zero _
    | false => rfl
  | none =>
    have worthless : keys.ownership o.script ≠ .foreign → o.value.toInt = 0 := fun known => by
      have hvalue : ¬ 0 < o.value := fun hpos => by
        exact nomatch hcoin.symm.trans
          (coin?_eq_some_iff.2 ⟨⟨known, hunspent, hunlocked outpoint, .inl hpos, rfl⟩, rfl⟩)
      rw [Int64.lt_iff_toInt_lt] at hvalue
      exact Int.le_antisymm (Int.not_lt.1 hvalue) hrange
    show 0 = _
    split
    · next hcounted =>
      exact (worthless (bne_iff_ne.1 (Bool.and_eq_true_iff.1 hcounted).1)).symm
    · rfl

/-- So the coins of an entry are worth what its unspent outputs credit. -/
theorem worth_coinsOf (hunlocked : ∀ outpoint, l.isLocked outpoint = false)
    (hall : ∀ o ∈ e.record.locatedOutputs, l.isSpent chain o.1 = false →
      ∃ value, outputCredit keys part o.2 = .ok value) :
    worth ((l.coinsOf keys chain ⟨true, false, true, none⟩ e fromMe).filter
        fun coin => wanted coin.spendable) =
      ((e.record.locatedOutputs.filter fun o => !l.isSpent chain o.1).map fun o =>
        amountOf (outputCredit keys part o.2)).sum := by
  unfold coinsOf
  rw [List.filterMap_eq_flatMap_toList, List.filter_flatMap, worth_flatMap, sum_map_filter]
  congr 1
  refine List.map_congr_left fun o ho => ?_
  cases hspent : l.isSpent chain o.1 with
  | true =>
    have unlisted : l.coin? keys chain ⟨true, false, true, none⟩ e fromMe o.1 o.2 = none :=
      Option.eq_none_iff_forall_ne_some.2 fun coin hcoin =>
        nomatch hspent.symm.trans (coin?_eq_some_iff.1 hcoin).1.2.1
    rw [unlisted]
    rfl
  | false =>
    obtain ⟨value, hcredit⟩ := hall o ho hspent
    rw [worth_coin? habout hunlocked hspent hcredit, hcredit]
    rfl

end

/-! ## Agreement -/

section
variable (hl : l.Unmemoized) (hunlocked : ∀ outpoint, l.isLocked outpoint = false)
include hl hunlocked

/-- What an entry adds to a balance is what those of its coins are worth that the balance is
about. -/
theorem worth_entryCoins {wanted : Bool → Bool} {coins : List Coin} (habout : IsAbout part wanted)
    (he : l.entry? hash = some e)
    (hamount : (trustedAmount keys chain part hash l).1 = .ok v)
    (hcoins : (entryCoins keys chain ⟨true, false, true, none⟩ hash l).1 = .ok coins) :
    worth (coins.filter fun coin => wanted coin.spendable) = v.toInt := by
  obtain ⟨heeded, hh, hlisted⟩ := (entryCoins_eq_ok_iff he).1 hcoins
  have hh : (isTrusted keys chain hash l).1 = .ok heeded := hh
  rcases trustedAmount_eq_ok_iff.1 hamount with ⟨hnot, rfl⟩ | ⟨htrusted, hamount⟩
  · obtain rfl := Except.ok.inj (hh.symm.trans hnot)
    obtain ⟨-, rfl⟩ | ⟨h, -⟩ := hlisted
    · rfl
    · cases h
  obtain rfl := Except.ok.inj (hh.symm.trans htrusted)
  obtain ⟨hv, hall⟩ := available_of_unmemoized hl he habout.single hamount
  have current : 0 ≤ l.depthOf chain e := by
    rcases (isTrusted_eq_ok_true_iff he).1 htrusted with h | ⟨h, -⟩ <;> omega
  have listed_iff : l.lists chain ⟨true, false, true, none⟩ e = true ↔
      l.blocksToMaturity chain e ≤ 0 := by
    rw [lists_eq_true_iff, and_iff_right current]
    unfold blocksToMaturity Entry.matures
    cases e.record.isCoinbase <;> simp
  rw [hv, availableWorth]
  split
  · next mature =>
    rcases hlisted with ⟨h, -⟩ | ⟨-, fromMe, -, rfl⟩
    · rw [listed_iff.2 mature] at h
      cases h
    · exact worth_coinsOf habout hunlocked (hall mature)
  · next waits =>
    rcases hlisted with ⟨-, rfl⟩ | ⟨h, -⟩
    · rfl
    · exact absurd (listed_iff.1 h) waits

/-- The agreement of one balance. -/
theorem worth_availableCoins {wanted : Bool → Bool} {coins : List Coin}
    (habout : IsAbout part wanted)
    (hbalance : (trustedBalance keys chain part l).1 = .ok v)
    (hcoins : (availableCoins keys chain ⟨true, false, true, none⟩ l).1 = .ok coins) :
    worth (coins.filter fun coin => wanted coin.spendable) = v.toInt := by
  obtain ⟨hall, hv⟩ := toInt_of_sumEntries steady_trustedAmount
    (show (sumEntries (trustedAmount keys chain part) l).1 = .ok v from hbalance)
  obtain ⟨parts, rfl⟩ := availableCoins_eq_ok_iff.1 hcoins
  rw [List.filter_flatMap, worth_flatMap, hv]
  congr 1
  refine List.map_congr_left fun hash hmem => ?_
  obtain ⟨e, he⟩ := SortedMap.mem_keys_iff.1 hmem
  obtain ⟨value, hvalue⟩ := hall hash hmem
  obtain ⟨found, hfound⟩ := parts hash hmem
  rw [hvalue, hfound]
  exact worth_entryCoins hl hunlocked habout he hvalue hfound

/-- Where nothing is memoized and nothing is locked, the balance is what the listed coins are worth
that we can sign for, and the watched balance what the others are worth. -/
theorem balances_agree {balance watched : Amount} {coins : List Coin}
    (hbalance : (trustedBalance keys chain .spendable l).1 = .ok balance)
    (hwatched : (trustedBalance keys chain .watchOnly l).1 = .ok watched)
    (hcoins : (availableCoins keys chain ⟨true, false, true, none⟩ l).1 = .ok coins) :
    balance.toInt = worth (coins.filter (·.spendable)) ∧
      watched.toInt = worth (coins.filter fun coin => !coin.spendable) := by
  constructor
  · exact (worth_availableCoins hl hunlocked isAbout_spendable hbalance hcoins).symm
  · exact (worth_availableCoins hl hunlocked isAbout_watchOnly hwatched hcoins).symm

end

/-- A transaction with outputs of ours, watched, and of somebody else. -/
def paysEach : Transaction :=
  { TxBody.blank with
    inputs := [⟨⟨Bytes.filled 32 0x77, 0⟩, Simulation.unlockScript, 0⟩]
    outputs := [Simulation.payment Simulation.ourTag 600,
      Simulation.payment Simulation.watchedTag 500, Simulation.payment 9 400] }.freeze

/-- A ledger that has seen it in the only block of the chain. -/
def watching : Simulation.Node :=
  ((Simulation.Node.start Settings.default).connect "paid" [.transaction paysEach]).2.2

/-- The coins that its outputs make. -/
def watchingCoins : List Coin :=
  [⟨⟨paysEach.hash, 0⟩, 600, 1, true, false, false⟩,
    ⟨⟨paysEach.hash, 1⟩, 500, 1, false, false, false⟩]

/-- What it holds and answers. -/
theorem watching_computed :
    let balance (part : OwnershipFilter) :=
      (trustedBalance watching.keys.view watching.chain.view part watching.ledger).1
    balance .spendable = .ok 600 ∧ balance .watchOnly = .ok 500 ∧
      (availableCoins watching.keys.view watching.chain.view ⟨true, false, true, none⟩
        watching.ledger).1 = .ok watchingCoins ∧
      watching.ledger.lockedCoins.isEmpty = true ∧
      ∀ entry ∈ watching.ledger.entries.toList, entry.2.memo = AmountMemo.blank := by
  decide +kernel

/-- Its balances are what its coins are worth. -/
theorem balances_agree_watching :
    let balance (part : OwnershipFilter) :=
      (trustedBalance watching.keys.view watching.chain.view part watching.ledger).1
    balance .spendable = .ok 600 ∧ balance .watchOnly = .ok 500 ∧
      (availableCoins watching.keys.view watching.chain.view ⟨true, false, true, none⟩
        watching.ledger).1 = .ok watchingCoins ∧
      (600 : Amount).toInt = worth (watchingCoins.filter (·.spendable)) ∧
      (500 : Amount).toInt = worth (watchingCoins.filter fun coin => !coin.spendable) := by
  obtain ⟨hbalance, hwatched, hcoins, hempty, hmemo⟩ := watching_computed
  have unlocked (outpoint : OutPoint) : watching.ledger.isLocked outpoint = false := by
    rw [isLocked, SortedMap.eq_empty_of_isEmpty hempty]
    rfl
  exact ⟨hbalance, hwatched, hcoins,
    balances_agree (unmemoized_of_toList hmemo) unlocked hbalance hwatched hcoins⟩

end Ledger
end ShieldedLedger
