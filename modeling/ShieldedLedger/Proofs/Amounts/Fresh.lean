import ShieldedLedger.Proofs.Agree
import ShieldedLedger.Wallet.Amounts

/-!
# Amounts from scratch

An amount that is computed from scratch does not depend on what is memoized: `l.markDirty`, the
ledger with every memoized amount forgotten, gives the same amounts as `l`, and the same answers to
the questions about depths and spenders that the amounts go by. An amount that can be computed is in
the money range.
-/

namespace ShieldedLedger
namespace Ledger

variable (l : Ledger) (keys : KeyView) (chain : ChainView)

/-! ## Without the memo -/

@[simp] theorem entry?_markDirty (hash : Hash256) :
    l.markDirty.entry? hash = (l.entry? hash).map Entry.markDirty :=
  entry?_mapEntries _ _ _

@[simp] theorem keys_entries_markDirty : l.markDirty.entries.keys = l.entries.keys :=
  SortedMap.keys_mapValues _ _

@[simp] theorem output?_markDirty (outpoint : OutPoint) :
    l.markDirty.output? outpoint = l.output? outpoint := by
  unfold output?
  rw [entry?_markDirty]
  cases l.entry? outpoint.hash <;> rfl

@[simp] theorem claimants_markDirty (key : SpendKey) :
    l.markDirty.claimants key = (l.claimants key).map fun c => (c.1, c.2.markDirty) := by
  unfold claimants
  rw [List.map_filterMap]
  congr 1
  funext hash
  show (l.markDirty.entry? hash).map _ = _
  rw [entry?_markDirty]
  cases l.entry? hash <;> rfl

/-- Which claimant is the active spender does not depend on memos. -/
@[simp] theorem activeSpender?_markDirty (key : SpendKey) :
    l.markDirty.activeSpender? chain key = l.activeSpender? chain key := by
  unfold activeSpender? confirmedClaims
  rw [claimants_markDirty, List.filterMap_map, List.map_map]
  rfl

@[simp] theorem depthOf_markDirty (e : Entry) :
    l.markDirty.depthOf chain e.markDirty = l.depthOf chain e := by
  have conflicted : l.markDirty.isConflicted chain e.markDirty = l.isConflicted chain e := by
    unfold isConflicted
    simp only [activeSpender?_markDirty]
    rfl
  unfold depthOf
  rw [conflicted]
  rfl

@[simp] theorem isSpent_markDirty (outpoint : OutPoint) :
    l.markDirty.isSpent chain outpoint = l.isSpent chain outpoint := by
  unfold isSpent isClaimed
  rw [claimants_markDirty, List.any_map]
  simp only [Function.comp_def, depthOf_markDirty]

@[simp] theorem spendsOnlyOurs_markDirty (r : Record) :
    l.markDirty.spendsOnlyOurs keys r = l.spendsOnlyOurs keys r := by
  unfold spendsOnlyOurs
  simp only [output?_markDirty]

@[simp] theorem blocksToMaturity_markDirty (e : Entry) :
    l.markDirty.blocksToMaturity chain e.markDirty = l.blocksToMaturity chain e := by
  unfold blocksToMaturity
  rw [depthOf_markDirty]
  rfl

@[simp] theorem hasAmount_markDirty (kind : AmountKind) (e : Entry) :
    l.markDirty.hasAmount chain kind e.markDirty = l.hasAmount chain kind e := by
  unfold hasAmount
  rw [blocksToMaturity_markDirty, depthOf_markDirty]
  rfl

/-- Amounts from scratch do not depend on memos. -/
@[simp] theorem freshAmount_markDirty (kind : AmountKind) (e : Entry) (part : OwnershipFilter) :
    l.markDirty.freshAmount keys chain kind e.markDirty part =
      l.freshAmount keys chain kind e part := by
  have debit : l.markDirty.inputDebit keys part = l.inputDebit keys part := by
    funext i
    unfold inputDebit
    rw [output?_markDirty]
  cases kind with
  | debit =>
    show l.markDirty.recordDebit keys e.record part = l.recordDebit keys e.record part
    unfold recordDebit
    rw [debit]
  | credit => rfl
  | immature => rfl
  | available =>
    show l.markDirty.unspentCredit keys chain e.record part =
      l.unspentCredit keys chain e.record part
    unfold unspentCredit
    simp only [isSpent_markDirty]

/-- Other memoized amounts make no difference once they are forgotten. -/
theorem markDirty_withEntries {entries : SortedMap Hash256 Entry}
    (h : ∀ hash, (entries.get? hash).map Entry.markDirty = (l.entry? hash).map Entry.markDirty) :
    { l with entries }.markDirty = l.markDirty := by
  have same :
      (entries.mapValues fun _ e => e.markDirty) = l.entries.mapValues fun _ e => e.markDirty :=
    SortedMap.ext fun hash => by
      rw [SortedMap.get?_mapValues, SortedMap.get?_mapValues]
      exact h hash
  show { l with entries := entries.mapValues fun _ e => e.markDirty } = _
  rw [same]
  rfl

@[simp] theorem markDirty_markDirty : l.markDirty.markDirty = l.markDirty := by
  refine markDirty_withEntries l fun hash => ?_
  have h := entry?_markDirty l hash
  unfold entry? at h
  rw [show (l.entries.mapValues fun _ e => e.markDirty).get? hash = _ from h, Option.map_map]
  rfl

/-- A change of an entry that is lost with its memo is lost with all memos. -/
theorem markDirty_modifyEntry {f : Entry → Entry} (hf : ∀ e, (f e).markDirty = e.markDirty)
    (hash : Hash256) : (l.modifyEntry hash f).markDirty = l.markDirty := by
  refine markDirty_withEntries l fun hash' => ?_
  rw [SortedMap.get?_modify_eq_ite]
  split
  · cases h : l.entries.get? hash' with
    | none => exact (congrArg (Option.map Entry.markDirty) h).symm
    | some e =>
      have held : l.entry? hash' = some e := h
      rw [held, Option.map_some, Option.map_some, Option.map_some, hf]
  · rfl

end Ledger

/-! ## The range -/

/-- A sum that stays in range is a valid amount. -/
theorem Amount.inRange_of_addInRange {total value sum : Amount}
    (h : total.addInRange value = some sum) : sum.inRange = true :=
  (addInRange_eq_some_iff.1 h).2.1

/-- An amount in range is what it adds up to from zero. -/
theorem Amount.zero_addInRange {value : Amount} :
    (0 : Amount).addInRange value = if value.inRange then some value else none := by
  unfold addInRange
  rw [Int64.zero_add, Bool.and_self]

/-- What holds of the start and is kept by every step that succeeds holds of the result. -/
theorem foldlM_induction {ε α β : Type} {P : β → Prop} {g : β → α → Except ε β}
    (step : ∀ b a b', P b → g b a = .ok b' → P b') :
    ∀ {items : List α} {b v : β}, P b → items.foldlM g b = .ok v → P v := by
  intro items
  induction items with
  | nil =>
    intro b v hb h
    obtain rfl := Except.ok.inj h
    exact hb
  | cons item rest ih =>
    intro b v hb h
    rw [List.foldlM_cons] at h
    cases hg : g b item with
    | error e =>
      rw [hg] at h
      cases h
    | ok b' =>
      rw [hg] at h
      exact ih (step b item b' hb hg) h

/-- A fold that fails does so in one of its steps. -/
theorem exists_error_of_foldlM {ε α β : Type} {g : β → α → Except ε β} {e : ε} :
    ∀ {items : List α} {b : β}, items.foldlM g b = .error e →
      ∃ b', ∃ item ∈ items, g b' item = .error e
  | [], _, h => nomatch h
  | item :: rest, b, h => by
    rw [List.foldlM_cons] at h
    cases hg : g b item with
    | error e' =>
      rw [hg] at h
      obtain rfl := Except.error.inj h
      exact ⟨b, item, List.mem_cons_self, hg⟩
    | ok b' =>
      rw [hg] at h
      obtain ⟨b'', item', hitem, he⟩ := exists_error_of_foldlM (show rest.foldlM g b' = _ from h)
      exact ⟨b'', item', List.mem_cons_of_mem _ hitem, he⟩

/-- A sum of amounts is in range. -/
theorem inRange_of_sumAmounts {α : Type} {quantity : String} {f : α → Except LedgerError Amount}
    {items : List α} {v : Amount} (h : sumAmounts quantity f items = .ok v) :
    v.inRange = true := by
  unfold sumAmounts at h
  refine foldlM_induction (P := fun total => total.inRange = true)
    (fun total item total' _ hstep => ?_) rfl h
  cases hf : f item with
  | error e =>
    rw [hf] at hstep
    cases hstep
  | ok value =>
    rw [hf] at hstep
    cases hs : total.addInRange value with
    | none =>
      simp only [hs, bind, Except.bind] at hstep
      cases hstep
    | some sum =>
      simp only [hs, bind, Except.bind] at hstep
      obtain rfl := Except.ok.inj hstep
      exact Amount.inRange_of_addInRange hs

/-- Where a sum of amounts fails, one of the amounts does or the range is left. -/
theorem sumAmounts_error {α : Type} {quantity : String} {f : α → Except LedgerError Amount}
    {items : List α} {e : LedgerError} (h : sumAmounts quantity f items = .error e) :
    (∃ item ∈ items, f item = .error e) ∨ e = .value (.outOfRange quantity) := by
  obtain ⟨total, item, hitem, hstep⟩ := exists_error_of_foldlM h
  cases hf : f item with
  | error e' =>
    rw [hf] at hstep
    obtain rfl := Except.error.inj hstep
    exact .inl ⟨item, hitem, hf⟩
  | ok value =>
    rw [hf] at hstep
    cases hs : total.addInRange value with
    | none =>
      simp only [hs, bind, Except.bind] at hstep
      exact .inr (Except.error.inj hstep).symm
    | some sum =>
      simp only [hs, bind, Except.bind] at hstep
      cases hstep

/-- An amount that is computed from scratch is a valid amount. -/
theorem Ledger.inRange_of_freshAmount {l : Ledger} {keys : KeyView} {chain : ChainView}
    {kind : AmountKind} {e : Entry} {part : OwnershipFilter} {v : Amount}
    (h : l.freshAmount keys chain kind e part = .ok v) : v.inRange = true := by
  cases kind <;> exact inRange_of_sumAmounts h

end ShieldedLedger
