import ShieldedLedger.Proofs.Amounts.Memo
import ShieldedLedger.Simulation.Chain
import ShieldedLedger.Simulation.Keys

/-!
# Stale amounts

To ask for amounts after `Ledger.markDirty` is to have them computed from scratch. A query that
reads no stale cell gives that answer anyway (`Ledger.Faithful`), and if a cell is stale there is a
query that does not.

What an entry spends of ours depends on which other records are held, and what of it is available
depends on who spends it and on what the chain confirms. Only these amounts are ever stale: the
others depend on the record and the keys. They are out of date rather than wrong: each was right at
a query of the run, and has stayed since because nothing has emptied the memo. Taking in a record
empties the memos of what it spends and of what it conflicts with. Erasing it empties none.
-/

namespace ShieldedLedger

/-- Whether the answer to a query may depend on a cell. -/
def AmountQuery.reads : AmountQuery → MemoCell → Bool
  | entry kind _ _, .owned kind' _ => kind == kind'
  | change _, .change => true
  | trusted _, .owned kind _ | untrusted _, .owned kind _ => kind == .debit || kind == .available
  | immature _, .owned kind _ => kind == .immature
  | _, _ => false

namespace OwnedAmounts

variable {compute : OwnershipFilter → Except LedgerError Amount} {quantity : String}

/-- The total over one kind of ownership. -/
theorem total_single (a : OwnedAmounts) {part : OwnershipFilter} (hpart : part ≠ .all) :
    (a.total quantity part compute).1 =
      addOutcome quantity (.ok 0) (a.remember part (compute part)).1 := by
  have single : parts part = [part] := by
    cases part with
    | all => exact absurd rfl hpart
    | spendable => rfl
    | watchOnly => rfl
  rw [total_eq, single]
  show (addPart quantity compute (.ok 0, a) part).1 = _
  rw [addPart_ok]

/-- A total of one amount is that amount. -/
theorem addOutcome_zero_eq_ok_iff {outcome : Except LedgerError Amount} {v : Amount} :
    addOutcome quantity (.ok 0) outcome = .ok v ↔ outcome = .ok v ∧ v.inRange = true := by
  cases outcome with
  | error e => simp [addOutcome, bind, Except.bind]
  | ok value =>
    simp only [addOutcome, bind, Except.bind, Amount.zero_addInRange]
    constructor
    · intro h
      split at h
      · next hsum =>
        split at hsum
        · next hrange =>
          obtain rfl := Option.some.inj hsum
          obtain rfl := Except.ok.inj h
          exact ⟨rfl, hrange⟩
        · cases hsum
      · cases h
    · rintro ⟨h, hrange⟩
      obtain rfl := Except.ok.inj h
      rw [if_pos hrange]

/-- What is in a cell is answered, whatever would be computed. -/
theorem remember_of_cell? {a : OwnedAmounts} {part : OwnershipFilter} {v : Amount}
    (h : a.cell? part = some v) (outcome : Except LedgerError Amount) :
    (a.remember part outcome).1 = .ok v := by
  have hpart : a.part part = some v := by
    cases part with
    | all => cases h
    | spendable => exact h
    | watchOnly => exact h
  unfold remember
  rw [hpart]

/-- With nothing memoized, what is computed is answered. -/
theorem remember_of_part_eq_none {a : OwnedAmounts} {part : OwnershipFilter}
    (h : a.part part = none) (outcome : Except LedgerError Amount) :
    (a.remember part outcome).1 = outcome := by
  unfold remember
  rw [h]
  cases outcome <;> rfl

end OwnedAmounts

namespace Ledger

variable {keys : KeyView} {chain : ChainView} {cells : MemoCell → Prop} {l l' : Ledger}

/-! ## Staleness -/

/-- The amount is memoized, it is in use, and from scratch it would not be the same. -/
def Stale (keys : KeyView) (chain : ChainView) (l : Ledger) (hash : Hash256) (cell : MemoCell)
    (v : Amount) : Prop :=
  ∃ e, l.entry? hash = some e ∧ e.memo.cell? cell = some v ∧ l.consults chain e cell = true ∧
    l.freshCell keys chain e cell ≠ .ok v

/-- None of these cells is stale in any entry. -/
def UpToDate (keys : KeyView) (chain : ChainView) (cells : MemoCell → Prop) (l : Ledger) : Prop :=
  ∀ hash cell v, cells cell → ¬ Stale keys chain l hash cell v

/-- A cell that is up to date and in use holds what is computed from scratch. -/
theorem UpToDate.freshCell (hl : UpToDate keys chain cells l) {hash : Hash256} {e : Entry}
    (he : l.entry? hash = some e) {cell : MemoCell} (hcell : cells cell) {v : Amount}
    (hv : e.memo.cell? cell = some v) (hcons : l.consults chain e cell = true) :
    l.freshCell keys chain e cell = .ok v := by
  by_cases h : l.freshCell keys chain e cell = .ok v
  · exact h
  · exact absurd ⟨e, he, hv, hcons, h⟩ (hl hash cell v hcell)

/-- An empty memo is up to date. -/
theorem upToDate_markDirty (l : Ledger) : UpToDate keys chain cells l.markDirty := by
  rintro hash cell v - ⟨e', he', hv, -, -⟩
  rw [entry?_markDirty] at he'
  obtain ⟨e, -, rfl⟩ := Option.map_eq_some_iff.1 he'
  rw [Entry.markDirty, AmountMemo.cell?_blank] at hv
  cases hv

/-- What is filled in is up to date. -/
theorem UpToDate.of_fills (hl : UpToDate keys chain cells l) (h : Fills keys chain l l') :
    UpToDate keys chain cells l' := by
  rintro hash cell v hcell ⟨e', he', hv, hcons, hstale⟩
  have fresh : FreshIn keys chain l' hash cell v := by
    rcases h.cells ⟨e', he', hv⟩ with ⟨e, he, hv⟩ | hfresh
    · have heq : e'.markDirty = e.markDirty := by
        have h' := entry?_markDirty l' hash
        rw [h.markDirty_eq, entry?_markDirty, he, he'] at h'
        exact (Option.some.inj h').symm
      rw [← consults_markDirty, h.markDirty_eq, heq, consults_markDirty] at hcons
      exact FreshIn.of_markDirty_eq ⟨e, he, hcons, hl.freshCell he hcell hv hcons⟩ h.markDirty_eq
    · exact hfresh.of_markDirty_eq h.markDirty_eq
  obtain ⟨e, he, -, hfresh⟩ := fresh
  rw [he'] at he
  obtain rfl := Option.some.inj he
  exact hstale hfresh

/-! ## Operations that answer as from scratch -/

/-- The operation fills cells, and if these cells are up to date it gives the same answer as with
empty memos. -/
structure Faithful {α : Type} (keys : KeyView) (chain : ChainView) (cells : MemoCell → Prop)
    (op : LedgerOp α) : Prop where
  fills : ∀ l, Fills keys chain l (op l).2
  answer : ∀ l, UpToDate keys chain cells l → (op l).1 = (op l.markDirty).1

namespace Faithful

variable {α β : Type}

theorem pure (a : α) : Faithful keys chain cells (Pure.pure a : LedgerOp α) :=
  ⟨.refl keys chain, fun _ _ => rfl⟩

theorem refuse (e : LedgerError) : Faithful keys chain cells (LedgerOp.refuse e : LedgerOp α) :=
  ⟨.refl keys chain, fun _ _ => rfl⟩

/-- Two faithful operations in a row are faithful: the cells that the first one fills are up to
date. -/
theorem bind {op : LedgerOp α} {f : α → LedgerOp β} (hop : Faithful keys chain cells op)
    (hf : ∀ a, Faithful keys chain cells (f a)) : Faithful keys chain cells (op >>= f) := by
  constructor
  · intro l
    have h := hop.fills l
    show Fills keys chain l (ExceptT.bindCont f (op l).1 (op l).2).2
    cases (op l).1 with
    | ok a => exact h.trans ((hf a).fills _)
    | error failure => exact h
  · intro l hl
    have first := hop.fills l
    have second := hop.fills l.markDirty
    show (ExceptT.bindCont f (op l).1 (op l).2).1 =
      (ExceptT.bindCont f (op l.markDirty).1 (op l.markDirty).2).1
    rw [hop.answer l hl]
    cases (op l.markDirty).1 with
    | error failure => rfl
    | ok a =>
      calc (f a (op l).2).1 = (f a (op l).2.markDirty).1 :=
            (hf a).answer _ (hl.of_fills first)
        _ = (f a (op l.markDirty).2.markDirty).1 := by
            rw [first.markDirty_eq, second.markDirty_eq, markDirty_markDirty]
        _ = (f a (op l.markDirty).2).1 :=
            ((hf a).answer _ ((upToDate_markDirty l).of_fills second)).symm

/-- An operation that goes by the ledger, but not by its memos. -/
theorem get_bind {f : Ledger → LedgerOp β} (hsame : ∀ l, f l = f l.markDirty)
    (hf : ∀ l, Faithful keys chain cells (f l)) : Faithful keys chain cells (get >>= f) := by
  constructor
  · exact fun l => (hf l).fills l
  · intro l hl
    show (f l l).1 = (f l.markDirty l.markDirty).1
    rw [← hsame l]
    exact (hf l).answer l hl

/-- A loop of faithful operations is faithful. -/
theorem foldlM {f : β → α → LedgerOp β} (hf : ∀ b a, Faithful keys chain cells (f b a)) :
    ∀ (items : List α) (b : β), Faithful keys chain cells (items.foldlM f b)
  | [], b => pure b
  | a :: rest, b => bind (hf b a) fun b => foldlM hf rest b

end Faithful

/-! ## Queries -/

/-- An entry that has an amount of the kind answers with the total of its cells. -/
theorem amount_fst {e : Entry} {hash : Hash256} (he : l.entry? hash = some e) {kind : AmountKind}
    (hhas : l.hasAmount chain kind e = true) (filter : OwnershipFilter) :
    (amount keys chain kind hash filter l).1 =
      ((e.memo.get kind).total kind.quantity filter (l.freshAmount keys chain kind e)).1.mapError
        Failure.error := by
  unfold amount
  simp only [he, hhas, Bool.not_true, Bool.false_eq_true, if_false]
  cases (e.memo.get kind).total kind.quantity filter (l.freshAmount keys chain kind e) with
  | mk outcome a => cases outcome <;> rfl

/-- An entry that has no amount of the kind answers 0. -/
theorem amount_fst_of_not {e : Entry} {hash : Hash256} (he : l.entry? hash = some e)
    {kind : AmountKind} (hhas : l.hasAmount chain kind e = false) (filter : OwnershipFilter) :
    (amount keys chain kind hash filter l).1 = .ok 0 := by
  unfold amount
  simp only [he, hhas, Bool.not_false, if_true]

/-- An amount of an entry, if the cells of its kind count. -/
theorem faithful_amount {kind : AmountKind} (hcells : ∀ part, cells (.owned kind part))
    (hash : Hash256) (filter : OwnershipFilter) :
    Faithful keys chain cells (amount keys chain kind hash filter) := by
  refine ⟨fills_amount kind hash filter, fun l hl => ?_⟩
  have bare := entry?_markDirty l hash
  cases he : l.entry? hash with
  | none =>
    rw [he, Option.map_none] at bare
    unfold amount
    rw [he, bare]
  | some e =>
    rw [he, Option.map_some] at bare
    have has := hasAmount_markDirty l chain kind e
    cases hhas : l.hasAmount chain kind e with
    | false => rw [amount_fst_of_not he hhas, amount_fst_of_not bare (has.trans hhas)]
    | true =>
      have exactCell : (e.memo.get kind).IsExact (l.freshAmount keys chain kind e) :=
        fun part v hv => hl.freshCell he (hcells part) hv hhas
      have empty : (e.markDirty.memo.get kind).IsExact
          (l.markDirty.freshAmount keys chain kind e.markDirty) := by
        intro part v hv
        have hv : AmountMemo.blank.cell? (.owned kind part) = some v := hv
        rw [AmountMemo.cell?_blank] at hv
        cases hv
      have same : l.markDirty.freshAmount keys chain kind e.markDirty =
          l.freshAmount keys chain kind e := funext (freshAmount_markDirty l keys chain kind e)
      rw [amount_fst he hhas, amount_fst bare (has.trans hhas),
        OwnedAmounts.total_of_isExact exactCell, OwnedAmounts.total_of_isExact empty, same]

/-- The change of an entry, if its cell counts. -/
theorem faithful_change (hcells : cells .change) (hash : Hash256) :
    Faithful keys chain cells (change keys hash) := by
  refine ⟨fills_change hash, fun l hl => ?_⟩
  have bare := entry?_markDirty l hash
  cases he : l.entry? hash with
  | none =>
    rw [he, Option.map_none] at bare
    unfold change
    rw [he, bare]
  | some e =>
    rw [he, Option.map_some] at bare
    have scratch : ∀ (l : Ledger) (e : Entry), l.entry? hash = some e → e.memo.change = none →
        (change keys hash l).1 = (recordChange keys e.record).mapError Failure.error := by
      intro l e he hnone
      unfold change
      simp only [he, hnone]
      cases recordChange keys e.record <;> rfl
    rw [scratch l.markDirty e.markDirty bare rfl]
    cases hv : e.memo.change with
    | none => exact scratch l e he hv
    | some v =>
      have fresh : recordChange keys e.record = .ok v := hl.freshCell he hcells hv rfl
      show _ = (recordChange keys e.record).mapError Failure.error
      unfold change
      simp only [he, hv, fresh]
      rfl

/-- Whether an entry is trusted is answered as from scratch if the debit cells are up to date. -/
theorem faithful_isTrusted (hcells : ∀ part, cells (.owned .debit part)) (hash : Hash256) :
    Faithful keys chain cells (isTrusted keys chain hash) := by
  refine Faithful.get_bind (fun l => ?_) fun l => ?_
  · rw [entry?_markDirty]
    cases l.entry? hash with
    | none => rfl
    | some e =>
      dsimp only [Option.map_some]
      rw [depthOf_markDirty, spendsOnlyOurs_markDirty]
      rfl
  · split
    · exact .refuse _
    dsimp only
    split
    · exact .pure _
    split
    · exact .pure _
    split
    · exact .pure _
    refine .bind (.bind (faithful_amount hcells _ _) fun _ => .pure _) fun fromMe => ?_
    split
    · exact .pure _
    · exact .pure _

/-- A sum over the entries is answered as from scratch if the query for each of them is. -/
theorem faithful_sumEntries {f : Hash256 → LedgerOp Amount}
    (hf : ∀ hash, Faithful keys chain cells (f hash)) :
    Faithful keys chain cells (sumEntries f) := by
  refine Faithful.get_bind (fun l => by rw [keys_entries_markDirty]) fun l => ?_
  refine Faithful.foldlM (fun total hash => .bind (hf hash) fun value => ?_) _ _
  split
  · exact .pure _
  · exact .refuse _

/-- A query answers as with empty memos if the cells that it reads are up to date. -/
theorem faithful_ask {q : AmountQuery} (hcells : ∀ cell, q.reads cell = true → cells cell) :
    Faithful keys chain cells (q.ask keys chain) := by
  cases q with
  | entry kind hash filter =>
    exact faithful_amount (fun part => hcells _ (beq_self_eq_true kind)) hash filter
  | change hash => exact faithful_change (hcells _ rfl) hash
  | trusted filter =>
    refine faithful_sumEntries fun hash => ?_
    refine .bind (faithful_isTrusted (fun part => hcells _ rfl) hash) fun trusted => ?_
    split
    · exact faithful_amount (fun part => hcells _ rfl) hash filter
    · exact .pure _
  | untrusted filter =>
    refine faithful_sumEntries fun hash => ?_
    refine .bind (faithful_isTrusted (fun part => hcells _ rfl) hash) fun trusted => ?_
    refine .get_bind (fun l => ?_) fun l => ?_
    · have depth : l.markDirty.depth? chain hash = l.depth? chain hash := by
        unfold depth?
        rw [entry?_markDirty]
        cases l.entry? hash with
        | none => rfl
        | some e => exact congrArg some (depthOf_markDirty l chain e)
      rw [depth]
    · split
      · exact faithful_amount (fun part => hcells _ rfl) hash filter
      · exact .pure _
  | immature filter =>
    exact faithful_sumEntries fun hash => faithful_amount (fun part => hcells _ rfl) hash filter

/-! ## What can be stale -/

variable {hash : Hash256} {cell : MemoCell} {v : Amount} {seen : Ledger → ChainView → Prop}

/-- What goes by the record and the keys alone is never stale. -/
theorem Remembers.kind_of_stale (hl : Remembers keys seen l) (h : Stale keys chain l hash cell v) :
    ∃ kind part, cell = .owned kind part ∧ (kind = .debit ∨ kind = .available) := by
  obtain ⟨e, he, hv, -, hstale⟩ := h
  obtain ⟨l₀, view, e₀, -, -, hr, -, hfresh⟩ := hl hash e cell v he hv
  have same : ∀ part, recordCredit keys e₀.record part = recordCredit keys e.record part := by
    rw [hr]
    exact fun _ => rfl
  cases cell with
  | change =>
    have hfresh : recordChange keys e₀.record = .ok v := hfresh
    rw [hr] at hfresh
    exact absurd hfresh hstale
  | owned kind part =>
    cases kind with
    | debit => exact ⟨_, part, rfl, .inl rfl⟩
    | available => exact ⟨_, part, rfl, .inr rfl⟩
    | credit => exact absurd ((same part).symm.trans hfresh) hstale
    | immature => exact absurd ((same part).symm.trans hfresh) hstale

/-- A stale amount shows when the entry is asked for it. -/
theorem Remembers.answer_of_stale {kind : AmountKind} {part : OwnershipFilter}
    (hl : Remembers keys seen l) (h : Stale keys chain l hash (.owned kind part) v) :
    (amount keys chain kind hash part l).1 ≠ (amount keys chain kind hash part l.markDirty).1 := by
  obtain ⟨e, he, hv, hhas, hstale⟩ := h
  obtain ⟨l₀, view, e₀, -, -, -, -, hold⟩ := hl hash e _ v he hv
  have hrange : v.inRange = true := inRange_of_freshAmount hold
  have hpart : part ≠ .all := by
    rintro rfl
    cases hv
  have remembered : (amount keys chain kind hash part l).1 = .ok v := by
    rw [amount_fst he hhas, OwnedAmounts.total_single _ hpart, OwnedAmounts.remember_of_cell? hv,
      OwnedAmounts.addOutcome_zero_eq_ok_iff.2 ⟨rfl, hrange⟩]
    rfl
  have bare : l.markDirty.entry? hash = some e.markDirty := by
    rw [entry?_markDirty, he, Option.map_some]
  have empty : (e.markDirty.memo.get kind).part part = none := by
    cases kind <;> cases part <;> rfl
  rw [remembered, amount_fst bare ((hasAmount_markDirty l chain kind e).trans hhas),
    OwnedAmounts.total_single _ hpart, freshAmount_markDirty,
    OwnedAmounts.remember_of_part_eq_none empty]
  intro heq
  cases hsum : OwnedAmounts.addOutcome kind.quantity (.ok 0)
      (l.freshAmount keys chain kind e part) with
  | error e =>
    rw [hsum] at heq
    cases heq
  | ok total =>
    rw [hsum] at heq
    obtain rfl := Except.ok.inj heq
    exact hstale (OwnedAmounts.addOutcome_zero_eq_ok_iff.1 hsum).1

/-! ## Runs -/

/-- When answers are stale. After a run under the same keys, a query that reads no stale cell gives
the answer that it gives with empty memos, and if every query does, no cell is stale. Only what is
spent of ours and what is available are ever stale, and a stale amount was right at a query of the
run. -/
theorem stale_answers (settings : Settings) (store : Store)
    (steps : List (Surroundings × Operation)) (keys : KeyView)
    (hkeys : ∀ step ∈ steps, step.1.keys = keys) (chain : ChainView) :
    let l := (empty settings store).after steps
    (∀ q : AmountQuery, (∀ hash cell v, q.reads cell = true → ¬ Stale keys chain l hash cell v) →
      (q.ask keys chain l).1 = (q.ask keys chain l.markDirty).1) ∧
    ((∀ q : AmountQuery, (q.ask keys chain l).1 = (q.ask keys chain l.markDirty).1) ↔
      ∀ hash cell v, ¬ Stale keys chain l hash cell v) ∧
    ∀ hash cell v, Stale keys chain l hash cell v →
      (∃ kind part, cell = .owned kind part ∧ (kind = .debit ∨ kind = .available)) ∧
      ∃ l₀ view, AskedIn (empty settings store) steps l₀ view ∧
        FreshIn keys view l₀ hash cell v := by
  intro l
  have start : Remembers keys (fun _ _ => False) (empty settings store) :=
    fun hash e cell v he => nomatch he
  have remembers : Remembers keys (AskedIn (empty settings store) steps) l := by
    refine (after_remembers hkeys start).imp fun l₀ view h => ?_
    exact h.resolve_left id
  have right : ∀ q : AmountQuery,
      (∀ hash cell v, q.reads cell = true → ¬ Stale keys chain l hash cell v) →
      (q.ask keys chain l).1 = (q.ask keys chain l.markDirty).1 :=
    fun q hfresh => (faithful_ask fun cell h => h).answer l hfresh
  refine ⟨right, ⟨fun hall hash cell v hstale => ?_, fun hnone q => right q fun hash cell v _ =>
    hnone hash cell v⟩, fun hash cell v hstale => ⟨remembers.kind_of_stale hstale, ?_⟩⟩
  · obtain ⟨kind, part, rfl, -⟩ := remembers.kind_of_stale hstale
    exact remembers.answer_of_stale hstale (hall (.entry kind hash part))
  · obtain ⟨e, he, hv, -, -⟩ := hstale
    obtain ⟨l₀, view, e₀, hasked, he₀, -, hcons, hfresh⟩ := remembers hash e cell v he hv
    exact ⟨l₀, view, hasked, e₀, he₀, hcons, hfresh⟩

/-- A record that pays us. -/
def funding : Transaction :=
  (Simulation.spendOf ⟨Bytes.filled 32 0x77, 0⟩ Simulation.ourTag 1000).freeze

/-- A record that spends what it pays us. -/
def spending : Transaction := (Simulation.spendOf ⟨funding.hash, 0⟩ 9 900).freeze

/-- Our keys, beside a chain without blocks. -/
def ourSurroundings : Surroundings :=
  ⟨Simulation.Keys.fresh.view, Simulation.Chain.empty.source, 0⟩

/-- What is available of the record that pays us. -/
def availableQuery : AmountQuery := .entry .available funding.hash .all

/-- Both records are taken in, the query is asked, and the spending record is erased. -/
def spendErased : List (Surroundings × Operation) :=
  [(ourSurroundings, .sync (.transaction funding) none),
    (ourSurroundings, .sync (.transaction spending) none),
    (ourSurroundings, .ask availableQuery),
    (ourSurroundings, .erase spending.hash)]

/-- An amount that is spent, and has been asked for, does not become available again when the
spending record is erased. -/
theorem stale_after_erase :
    let l := (empty Settings.default Store.empty).after spendErased
    let keys := ourSurroundings.keys
    let chain := ourSurroundings.chain.toChainView
    (∀ step ∈ spendErased, step.1.keys = keys) ∧
      (availableQuery.ask keys chain l).1.toOption = some 0 ∧
      (availableQuery.ask keys chain l.markDirty).1.toOption = some 1000 ∧
      ∃ hash cell v, Stale keys chain l hash cell v := by
  intro l keys chain
  have hkeys : ∀ step ∈ spendErased, step.1.keys = keys := by
    intro step hstep
    simp only [spendErased, List.mem_cons, List.not_mem_nil, or_false] at hstep
    rcases hstep with rfl | rfl | rfl | rfl <;> rfl
  obtain ⟨answer, fresh⟩ : (availableQuery.ask keys chain l).1.toOption = some 0 ∧
      (availableQuery.ask keys chain l.markDirty).1.toOption = some 1000 := by decide +kernel
  refine ⟨hkeys, answer, fresh, ?_⟩
  obtain ⟨right, -, -⟩ := stale_answers Settings.default Store.empty spendErased keys hkeys chain
  apply Classical.byContradiction
  intro hnone
  have same := right availableQuery fun hash cell v _ hstale => hnone ⟨hash, cell, v, hstale⟩
  rw [same, fresh] at answer
  exact absurd answer (by decide)

end Ledger
end ShieldedLedger
