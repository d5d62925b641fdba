import ShieldedLedger.Proofs.Amounts.Fresh
import ShieldedLedger.Proofs.SpendIndex

/-!
# What is memoized

A memo has nine cells: four kinds of amounts, each for spendable and for watched outputs, and the
change. A query fills cells that are empty with amounts computed from scratch and changes nothing
else (`Ledger.Fills`). All other operations leave the memo of an entry as it is, or empty it
(`Ledger.MemoKept`).

So whatever is memoized after a run has been computed from scratch before: at a query of the run, of
the same record (`Ledger.after_remembers`). It need not be what would be computed from scratch now.
-/

namespace ShieldedLedger

/-! ## Cells -/

/-- A place in a memo. -/
inductive MemoCell
  /-- An amount of one kind of ownership. -/
  | owned (kind : AmountKind) (part : OwnershipFilter)
  /-- The change. -/
  | change
deriving DecidableEq

/-- What is memoized for one kind of ownership. There is no cell for both kinds together. -/
def OwnedAmounts.cell? (a : OwnedAmounts) : OwnershipFilter → Option Amount
  | .all => none
  | part => a.part part

/-- What is in a cell. -/
def AmountMemo.cell? (m : AmountMemo) : MemoCell → Option Amount
  | .owned kind part => (m.get kind).cell? part
  | .change => m.change

/-- An empty memo has nothing in any cell. -/
@[simp] theorem AmountMemo.cell?_blank (cell : MemoCell) : blank.cell? cell = none := by
  cases cell with
  | owned kind part => cases kind <;> cases part <;> rfl
  | change => rfl

/-- Setting the amounts of a kind leaves the cells of the other kinds as they are. -/
theorem AmountMemo.cell?_set (m : AmountMemo) (kind kind' : AmountKind) (a : OwnedAmounts)
    (part : OwnershipFilter) : (m.set kind a).cell? (.owned kind' part) =
      if kind' = kind then a.cell? part else m.cell? (.owned kind' part) := by
  cases kind <;> cases kind' <;> rfl

/-- Setting the amounts of a kind leaves the change as it is. -/
theorem AmountMemo.cell?_set_change (m : AmountMemo) (kind : AmountKind) (a : OwnedAmounts) :
    (m.set kind a).cell? .change = m.cell? .change := by
  cases kind <;> rfl

/-- Setting the change leaves the other cells as they are. -/
theorem AmountMemo.cell?_withChange (m : AmountMemo) (value : Amount) (cell : MemoCell) :
    { m with change := some value }.cell? cell =
      if cell = .change then some value else m.cell? cell := by
  cases cell with
  | owned kind part => cases kind <;> rfl
  | change => rfl

/-! ## Totals -/

namespace OwnedAmounts

variable {compute : OwnershipFilter → Except LedgerError Amount} {quantity : String}

/-- What is memoized agrees with what is computed. -/
def IsExact (compute : OwnershipFilter → Except LedgerError Amount) (a : OwnedAmounts) : Prop :=
  ∀ part v, a.cell? part = some v → compute part = .ok v

/-- One kind of ownership in a total. -/
def addPart (quantity : String) (compute : OwnershipFilter → Except LedgerError Amount)
    (state : Except LedgerError Amount × OwnedAmounts) (part : OwnershipFilter) :
    Except LedgerError Amount × OwnedAmounts :=
  match state with
  | (.error e, a) => (.error e, a)
  | (.ok total, a) =>
    match a.remember part (compute part) with
    | (.error e, a) => (.error e, a)
    | (.ok value, a) =>
      match total.addInRange value with
      | some sum => (.ok sum, a)
      | none => (.error (.value (.outOfRange quantity)), a)

/-- The kinds of ownership that a filter counts. -/
def parts (filter : OwnershipFilter) : List OwnershipFilter :=
  [OwnershipFilter.spendable, .watchOnly].filter filter.includes

/-- A total goes over the kinds of ownership that the filter counts, one after the other. -/
theorem total_eq (a : OwnedAmounts) (filter : OwnershipFilter) :
    a.total quantity filter compute = (parts filter).foldl (addPart quantity compute) (.ok 0, a) :=
  rfl

/-- A cell holds what it held before, or what has been computed just now. -/
theorem cell?_remember {a : OwnedAmounts} {part part' : OwnershipFilter} {v : Amount}
    (h : (a.remember part (compute part)).2.cell? part' = some v) (hpart : part ≠ .all) :
    a.cell? part' = some v ∨ compute part' = .ok v := by
  unfold remember at h
  split at h
  · exact .inl h
  · split at h
    · next value hvalue =>
      cases part with
      | all => exact absurd rfl hpart
      | spendable =>
        cases part' with
        | spendable => exact .inr (hvalue.trans (congrArg Except.ok (Option.some.inj h)))
        | watchOnly => exact .inl h
        | all => cases h
      | watchOnly =>
        cases part' with
        | spendable => exact .inl h
        | watchOnly => exact .inr (hvalue.trans (congrArg Except.ok (Option.some.inj h)))
        | all => cases h
    · exact .inl h

/-- What is memoized exactly is answered as if computed. -/
theorem remember_of_isExact {a : OwnedAmounts} (ha : a.IsExact compute) {part : OwnershipFilter}
    (hpart : part ≠ .all) : (a.remember part (compute part)).1 = compute part := by
  unfold remember
  cases hv : a.part part with
  | some v =>
    have : a.cell? part = some v := by
      cases part with
      | all => exact absurd rfl hpart
      | spendable => exact hv
      | watchOnly => exact hv
    exact (ha part v this).symm
  | none => cases compute part <;> rfl

/-- Adds what one kind of ownership comes to. -/
def addOutcome (quantity : String) (total value : Except LedgerError Amount) :
    Except LedgerError Amount := do
  match (← total).addInRange (← value) with
  | some sum => .ok sum
  | none => .error (.value (.outOfRange quantity))

/-- The total over the kinds of ownership that the filter counts, from scratch. -/
def freshTotal (quantity : String) (filter : OwnershipFilter)
    (compute : OwnershipFilter → Except LedgerError Amount) : Except LedgerError Amount :=
  (parts filter).foldl (fun total part => addOutcome quantity total (compute part)) (.ok 0)

/-- To add one kind of ownership is to add what is remembered for it. -/
theorem addPart_ok (total : Amount) (a : OwnedAmounts) (part : OwnershipFilter) :
    addPart quantity compute (.ok total, a) part =
      (addOutcome quantity (.ok total) (a.remember part (compute part)).1,
        (a.remember part (compute part)).2) := by
  unfold addPart addOutcome
  dsimp only
  cases a.remember part (compute part) with
  | mk outcome a' =>
    cases outcome with
    | error e => rfl
    | ok value =>
      dsimp only [bind, Except.bind]
      cases total.addInRange value <;> rfl

/-- The cells after a total are those before it, or hold what is computed. -/
theorem cell?_foldl_addPart : ∀ (ps : List OwnershipFilter), (∀ part ∈ ps, part ≠ .all) →
    ∀ (total : Except LedgerError Amount) (a : OwnedAmounts) {part : OwnershipFilter} {v : Amount},
      (ps.foldl (addPart quantity compute) (total, a)).2.cell? part = some v →
      a.cell? part = some v ∨ compute part = .ok v
  | [], _, _, _, _, _, h => .inl h
  | part :: rest, hparts, total, a, part', v, h => by
    have hrest := fun part hp => hparts part (List.mem_cons_of_mem _ hp)
    rw [List.foldl_cons] at h
    cases total with
    | error e => exact cell?_foldl_addPart rest hrest _ a h
    | ok total =>
      rw [addPart_ok] at h
      rcases cell?_foldl_addPart rest hrest _ _ h with h | h
      · exact cell?_remember h (hparts part List.mem_cons_self)
      · exact .inr h

/-- If what is memoized is exact, the total is that from scratch. -/
theorem foldl_addPart_of_isExact : ∀ (ps : List OwnershipFilter), (∀ part ∈ ps, part ≠ .all) →
    ∀ (total : Except LedgerError Amount) {a : OwnedAmounts}, a.IsExact compute →
      (ps.foldl (addPart quantity compute) (total, a)).1 =
        ps.foldl (fun total part => addOutcome quantity total (compute part)) total
  | [], _, _, _, _ => rfl
  | part :: rest, hparts, total, a, ha => by
    have hpart := hparts part List.mem_cons_self
    have hrest := fun part hp => hparts part (List.mem_cons_of_mem _ hp)
    rw [List.foldl_cons, List.foldl_cons]
    cases total with
    | error e => exact foldl_addPart_of_isExact rest hrest _ ha
    | ok total =>
      have kept : IsExact compute (a.remember part (compute part)).2 := by
        intro part' v h
        rcases cell?_remember h hpart with h | h
        · exact ha part' v h
        · exact h
      rw [addPart_ok, remember_of_isExact ha hpart]
      exact foldl_addPart_of_isExact rest hrest _ kept

/-- A filter counts kinds of ownership, none of which is all of them. -/
theorem ne_all_of_mem_parts {filter part : OwnershipFilter} (h : part ∈ parts filter) :
    part ≠ .all := by
  rintro rfl
  cases filter <;> simp [parts, OwnershipFilter.includes] at h

/-- Once a total is asked for, a cell holds what it held before, or what has been computed for
it. -/
theorem cell?_total {a : OwnedAmounts} {filter part : OwnershipFilter} {v : Amount}
    (h : (a.total quantity filter compute).2.cell? part = some v) :
    a.cell? part = some v ∨ compute part = .ok v :=
  cell?_foldl_addPart _ (fun _ => ne_all_of_mem_parts) _ _ h

/-- If what is memoized is exact, so is the total. -/
theorem total_of_isExact {a : OwnedAmounts} (ha : a.IsExact compute) (filter : OwnershipFilter) :
    (a.total quantity filter compute).1 = freshTotal quantity filter compute :=
  foldl_addPart_of_isExact _ (fun _ => ne_all_of_mem_parts) _ ha

end OwnedAmounts

namespace Ledger

variable {keys : KeyView} {chain : ChainView} {l l' l'' : Ledger}

/-! ## Queries fill cells -/

/-- Whether the cell is consulted if the entry is asked for the amount. -/
def consults (l : Ledger) (chain : ChainView) (e : Entry) : MemoCell → Bool
  | .owned kind _ => l.hasAmount chain kind e
  | .change => true

/-- What the cell is to hold, from scratch. -/
def freshCell (l : Ledger) (keys : KeyView) (chain : ChainView) (e : Entry) :
    MemoCell → Except LedgerError Amount
  | .owned kind part => l.freshAmount keys chain kind e part
  | .change => recordChange keys e.record

/-- Which cells are consulted does not depend on what they hold. -/
theorem consults_markDirty (l : Ledger) (chain : ChainView) (e : Entry) (cell : MemoCell) :
    l.markDirty.consults chain e.markDirty cell = l.consults chain e cell := by
  cases cell with
  | owned kind part => exact hasAmount_markDirty l chain kind e
  | change => rfl

/-- What a cell is to hold does not depend on what it holds. -/
theorem freshCell_markDirty (l : Ledger) (keys : KeyView) (chain : ChainView) (e : Entry)
    (cell : MemoCell) :
    l.markDirty.freshCell keys chain e.markDirty cell = l.freshCell keys chain e cell := by
  cases cell with
  | owned kind part => exact freshAmount_markDirty l keys chain kind e part
  | change => rfl

/-- A memoized amount of the entry with a hash is in use, and computed from scratch it would be the
same. -/
def FreshIn (keys : KeyView) (chain : ChainView) (l : Ledger) (hash : Hash256) (cell : MemoCell)
    (v : Amount) : Prop :=
  ∃ e, l.entry? hash = some e ∧ l.consults chain e cell = true ∧
    l.freshCell keys chain e cell = .ok v

/-- Ledgers that differ only in what is memoized compute the same from scratch. -/
theorem FreshIn.of_markDirty_eq {hash : Hash256} {cell : MemoCell} {v : Amount}
    (hfresh : FreshIn keys chain l hash cell v) (h : l'.markDirty = l.markDirty) :
    FreshIn keys chain l' hash cell v := by
  obtain ⟨e, he, hcons, hcell⟩ := hfresh
  have he' : l'.markDirty.entry? hash = some e.markDirty := by
    rw [h, entry?_markDirty, he, Option.map_some]
  rw [entry?_markDirty] at he'
  obtain ⟨e', he', heq⟩ := Option.map_eq_some_iff.1 he'
  refine ⟨e', he', ?_, ?_⟩
  · rw [← consults_markDirty, h, heq, consults_markDirty, hcons]
  · rw [← freshCell_markDirty, h, heq, freshCell_markDirty, hcell]

/-- A memoized amount of the entry with a hash. -/
def Memoized (l : Ledger) (hash : Hash256) (cell : MemoCell) (v : Amount) : Prop :=
  ∃ e, l.entry? hash = some e ∧ e.memo.cell? cell = some v

/-- The second ledger differs from the first in what is memoized only, and what it has beyond the
first is in use and computed from scratch. -/
structure Fills (keys : KeyView) (chain : ChainView) (l l' : Ledger) : Prop where
  markDirty_eq : l'.markDirty = l.markDirty
  cells : ∀ {hash cell v}, Memoized l' hash cell v →
    Memoized l hash cell v ∨ FreshIn keys chain l hash cell v

theorem Fills.refl (keys : KeyView) (chain : ChainView) (l : Ledger) : Fills keys chain l l :=
  ⟨rfl, .inl⟩

/-- What is filled in two steps is filled. -/
theorem Fills.trans (h : Fills keys chain l l') (h' : Fills keys chain l' l'') :
    Fills keys chain l l'' := by
  refine ⟨h'.markDirty_eq.trans h.markDirty_eq, fun hmemo => ?_⟩
  rcases h'.cells hmemo with hmemo | hfresh
  · exact h.cells hmemo
  · exact .inr (hfresh.of_markDirty_eq h.markDirty_eq.symm)

/-- The memo of one entry gets new contents, of which each cell held what it holds, or is in use and
computed from scratch. -/
theorem fills_modifyEntry {hash : Hash256} {e : Entry} (he : l.entry? hash = some e)
    {f : AmountMemo → AmountMemo}
    (hf : ∀ cell v, (f e.memo).cell? cell = some v → e.memo.cell? cell = some v ∨
      l.consults chain e cell = true ∧ l.freshCell keys chain e cell = .ok v) :
    Fills keys chain l (l.modifyEntry hash fun e => { e with memo := f e.memo }) := by
  have same (e : Entry) : { e with memo := f e.memo }.markDirty = e.markDirty := rfl
  refine ⟨markDirty_modifyEntry l same hash, ?_⟩
  rintro hash' cell v ⟨e', he', hcell⟩
  rw [entry?_modifyEntry] at he'
  split at he'
  · next hh =>
    subst hh
    rw [he] at he'
    obtain rfl := Option.some.inj he'
    rcases hf cell v hcell with h | ⟨hcons, hfresh⟩
    · exact .inl ⟨e, he, h⟩
    · exact .inr ⟨e, he, hcons, hfresh⟩
  · exact .inl ⟨e', he', hcell⟩

/-- Asking for an amount of an entry. -/
theorem fills_amount (kind : AmountKind) (hash : Hash256) (filter : OwnershipFilter) (l : Ledger) :
    Fills keys chain l (amount keys chain kind hash filter l).2 := by
  unfold amount
  split
  · exact .refl keys chain l
  next e he =>
  split
  · exact .refl keys chain l
  next hhas =>
  have filled : ∀ outcome a, (e.memo.get kind).total kind.quantity filter
      (l.freshAmount keys chain kind e) = (outcome, a) →
      Fills keys chain l (l.modifyEntry hash fun e => { e with memo := e.memo.set kind a }) := by
    intro outcome a htotal
    refine fills_modifyEntry (f := fun m => m.set kind a) he fun cell v hcell => ?_
    cases cell with
    | change =>
      rw [AmountMemo.cell?_set_change] at hcell
      exact .inl hcell
    | owned kind' part =>
      rw [AmountMemo.cell?_set] at hcell
      split at hcell
      · next hkind =>
        subst hkind
        have hcell : ((e.memo.get kind').total kind'.quantity filter
            (l.freshAmount keys chain kind' e)).2.cell? part = some v := by
          rw [htotal]
          exact hcell
        rcases OwnedAmounts.cell?_total hcell with h | h
        · exact .inl h
        · exact .inr ⟨by simpa [consults] using hhas, h⟩
      · exact .inl hcell
  split
  · next htotal => exact filled _ _ htotal
  · next htotal => exact filled _ _ htotal

/-- Asking for the change of an entry. -/
theorem fills_change (hash : Hash256) (l : Ledger) :
    Fills keys chain l (change keys hash l).2 := by
  unfold change
  split
  · exact .refl keys chain l
  next e he =>
  split
  · exact .refl keys chain l
  split
  · exact .refl keys chain l
  next value hvalue =>
  refine fills_modifyEntry (f := fun m => { m with change := some value }) he fun cell v hcell => ?_
  rw [AmountMemo.cell?_withChange] at hcell
  split at hcell
  · next hc =>
    subst hc
    obtain rfl := Option.some.inj hcell
    exact .inr ⟨rfl, hvalue⟩
  · exact .inl hcell

/-- A query fills cells and changes nothing else. -/
theorem fills_ask (q : AmountQuery) (l : Ledger) : Fills keys chain l (q.ask keys chain l).2 :=
  keeps_query (I := Fills keys chain l)
    (fun kind hash filter l' h => h.trans (fills_amount kind hash filter l'))
    (fun hash l' h => h.trans (fills_change hash l')) q l (.refl keys chain l)

/-! ## Other operations keep memos or empty them -/

/-- What an entry remembers, and of which record. -/
def memoPart (e : Entry) : Record × AmountMemo := (e.record, e.memo)

/-- Every entry of the second ledger has an empty memo, or the record and the memo that it had in
the first. -/
def MemoKept (l l' : Ledger) : Prop :=
  ∀ hash e', l'.entry? hash = some e' → e'.memo = AmountMemo.blank ∨
    ∃ e, l.entry? hash = some e ∧ memoPart e' = memoPart e

theorem MemoKept.refl (l : Ledger) : MemoKept l l := fun _ _ he => .inr ⟨_, he, rfl⟩

theorem MemoKept.trans (h : MemoKept l l') (h' : MemoKept l' l'') : MemoKept l l'' := by
  intro hash e'' he''
  rcases h' hash e'' he'' with hblank | ⟨e', he', hp⟩
  · exact .inl hblank
  · rcases h hash e' he' with hblank | ⟨e, he, hp'⟩
    · exact .inl ((congrArg Prod.snd hp).trans hblank)
    · exact .inr ⟨e, he, hp.trans hp'⟩

/-- Memos are kept if records and memos stay as they are. -/
theorem MemoKept.of_agree (h : Agree memoPart l l') : MemoKept l l' :=
  fun _ _ he' => .inr (h.entry he')

/-- The entries are changed, but for their memos, or their memos are emptied. -/
theorem memoKept_mapEntries {f : Entry → Entry}
    (hf : ∀ e, (f e).memo = AmountMemo.blank ∨ memoPart (f e) = memoPart e) (l : Ledger) :
    MemoKept l (l.mapEntries f) := by
  intro hash e' he'
  rw [entry?_mapEntries] at he'
  obtain ⟨e, he, rfl⟩ := Option.map_eq_some_iff.1 he'
  rcases hf e with h | h
  · exact .inl h
  · exact .inr ⟨e, he, h⟩

/-- Forgetting the memo of one entry empties that memo and keeps the others. -/
theorem memoKept_markEntryDirty (l : Ledger) (hash : Hash256) :
    MemoKept l (l.modifyEntry hash Entry.markDirty) := by
  intro hash' e' he'
  rw [entry?_modifyEntry] at he'
  split at he'
  · obtain ⟨e, -, rfl⟩ := Option.map_eq_some_iff.1 he'
    exact .inl rfl
  · exact .inr ⟨e', he', rfl⟩

/-- Steps that keep memos or empty them do so one after the other. -/
theorem memoKept_foldl {α : Type} {step : Ledger → α → Ledger} (h : ∀ l a, MemoKept l (step l a)) :
    ∀ (items : List α) (l : Ledger), MemoKept l (items.foldl step l)
  | [], l => .refl l
  | a :: rest, l => (h l a).trans (memoKept_foldl h rest (step l a))

/-- Registering spends keeps memos or empties them. -/
theorem memoKept_registerSpends (l : Ledger) (hash : Hash256) :
    MemoKept l (l.registerSpends hash) := by
  have registered : ∀ (l : Ledger) key, MemoKept l (registerSpend hash l key) := by
    intro l key
    have listed : MemoKept l (listSpender hash l key) := .refl l
    show MemoKept l (if (addOnce (l.spendersOf key) hash).length > 1 then
        (addOnce (l.spendersOf key) hash).foldl (fun l owner => l.modifyEntry owner Entry.markDirty)
          ((listSpender hash l key).alignInfo (addOnce (l.spendersOf key) hash))
      else listSpender hash l key)
    split
    · have aligned : MemoKept l
          ((listSpender hash l key).alignInfo (addOnce (l.spendersOf key) hash)) :=
        listed.trans (.of_agree (agree_alignInfo (fun _ _ => rfl) _))
      exact aligned.trans (memoKept_foldl (fun l owner => memoKept_markEntryDirty l owner) _ _)
    · exact listed
  unfold registerSpends
  split
  · exact .refl l
  · exact memoKept_foldl registered _ _

/-- Forgetting the memos that a record affects keeps memos or empties them. -/
theorem memoKept_markAffectedDirty (l : Ledger) (r : Record) : MemoKept l (l.markAffectedDirty r) :=
  memoKept_foldl (fun l hash => memoKept_markEntryDirty l hash) _ _

/-- An entry with an empty memo is put into the ledger. -/
theorem MemoKept.of_insert {e : Entry} (he : e.memo = AmountMemo.blank)
    (entries : ∀ hash, l'.entry? hash = if hash = e.hash then some e else l.entry? hash) :
    MemoKept l l' := by
  intro hash e' he'
  rw [entries] at he'
  split at he'
  · obtain rfl := Option.some.inj he'
    exact .inl he
  · exact .inr ⟨e', he', rfl⟩

/-- Adding an entry keeps memos or empties them. -/
theorem memoKept_addEntry (view : ChainView) (now : Int64) (incoming : Entry) (l : Ledger) :
    MemoKept l (addEntry view now incoming l).2 := by
  have indexed : ∀ (l : Ledger) hash, MemoKept l (l.indexEntry hash) :=
    fun l hash => .of_agree (agree_indexEntry hash)
  rcases addEntry_cases view now incoming l with h | ⟨-, store, h⟩ | ⟨stored, store, -, h⟩
  · rw [h]
    exact .refl l
  · rw [h]
    have inserted : MemoKept l
        (l.withNew (incoming.received view now l.nextOrder).markDirty store) :=
      .of_insert rfl (entry?_withNew l _ store)
    exact (inserted.trans (memoKept_registerSpends _ _)).trans (indexed _ _)
  · rw [h]
    have merged : MemoKept l (l.withMerged (stored.merge incoming).markDirty store) :=
      .of_insert rfl (entry?_withMerged l _ store)
    exact merged.trans (indexed _ _)

/-- Erasing an entry keeps memos or empties them. -/
theorem memoKept_erase (l : Ledger) (hash : Hash256) : MemoKept l (l.erase hash).2 := by
  unfold erase
  cases he : l.entry? hash with
  | none => exact .refl l
  | some e =>
    dsimp only
    obtain ⟨spenders, h⟩ := foldl_withdrawSpend hash e.spendKeys
      { l with entries := l.entries.erase hash }
    rw [h]
    intro hash' e' he'
    have he' : (l.entries.erase hash).get? hash' = some e' := he'
    rw [SortedMap.get?_erase_eq_ite] at he'
    split at he'
    · cases he'
    · exact .inr ⟨e', he', rfl⟩

/-- Whatever is done with a ledger but asking for amounts. -/
theorem memoKept_apply (s : Surroundings) {op : Operation} (hop : ∀ q, op ≠ .ask q) (l : Ledger) :
    MemoKept l (op.apply s l) := by
  have hn : IgnoresNoteData memoPart := fun _ _ _ => rfl
  have add : ∀ view now incoming, Keeps (MemoKept l) (addEntry view now incoming) :=
    fun view now incoming l' h => h.trans (memoKept_addEntry view now incoming l')
  have tip : ∀ index block added,
      Keeps (fun t => MemoKept l t.ledger) (chainTip index block added) :=
    fun index block added t ht =>
      ht.trans (.of_agree (keeps_agree_chainTip hn t.ledger index block added t (.refl _ _)))
  have unchanged : ∀ {l' : Ledger}, l'.entries = l.entries → MemoKept l l' := by
    intro l' h hash e' he'
    unfold entry? at he'
    rw [h] at he'
    exact .inr ⟨e', he', rfl⟩
  cases op with
  | sync r block =>
    exact keeps_sync (fun _ _ _ => add _ _ _)
      (fun l' h => h.trans (memoKept_markAffectedDirty l' r)) l (.refl l)
  | addIfRelevant incoming block update =>
    exact keeps_addIfRelevant (fun _ _ _ => add _ _ _) l (.refl l)
  | addEntry incoming => exact memoKept_addEntry _ _ incoming l
  | registerSpends hash => exact memoKept_registerSpends l hash
  | deriveNullifiers => exact .of_agree (agree_deriveNullifiers hn _)
  | chainTip index block tree added => exact keeps_tipOn (tip _ _ _) l (.refl l)
  | rescan request =>
    exact keeps_rescan (add _ _) (fun index block => tip index block true) l (.refl l)
  | setBestChain locator => exact .of_agree (agree_setBestChain locator)
  | clearWitnesses => exact .of_agree (agree_clearWitnesses hn)
  | lockCoin outpoint => exact unchanged rfl
  | unlockCoin outpoint => exact unchanged rfl
  | unlockAllCoins => exact unchanged rfl
  | erase hash => exact memoKept_erase l hash
  | markDirty => exact memoKept_mapEntries (fun _ => .inl rfl) l
  | markAffectedDirty r => exact memoKept_markAffectedDirty l r
  | ask q => exact absurd rfl (hop q)
  | planResend bestBlockTime delay => exact .of_agree (agree_planResend _ _ _)
  | setStore store => exact unchanged rfl

/-! ## What is remembered -/

/-- Every memoized amount has been computed from scratch, of the same record, in one of the states
and under one of the views that `seen` admits. -/
def Remembers (keys : KeyView) (seen : Ledger → ChainView → Prop) (l : Ledger) : Prop :=
  ∀ hash e cell v, l.entry? hash = some e → e.memo.cell? cell = some v →
    ∃ l₀ chain e₀, seen l₀ chain ∧ l₀.entry? hash = some e₀ ∧ e₀.record = e.record ∧
      l₀.consults chain e₀ cell = true ∧ l₀.freshCell keys chain e₀ cell = .ok v

variable {seen seen' : Ledger → ChainView → Prop}

/-- What is remembered of some states is remembered of more. -/
theorem Remembers.imp (hl : Remembers keys seen l) (h : ∀ l chain, seen l chain → seen' l chain) :
    Remembers keys seen' l := by
  intro hash e cell v he hcell
  obtain ⟨l₀, chain, e₀, hseen, rest⟩ := hl hash e cell v he hcell
  exact ⟨l₀, chain, e₀, h _ _ hseen, rest⟩

/-- With memos kept or emptied, there is nothing to remember that was not remembered before. -/
theorem Remembers.of_memoKept (hl : Remembers keys seen l) (h : MemoKept l l') :
    Remembers keys seen l' := by
  intro hash e' cell v he' hcell
  rcases h hash e' he' with hblank | ⟨e, he, hp⟩
  · rw [hblank, AmountMemo.cell?_blank] at hcell
    cases hcell
  · have hr : e'.record = e.record := congrArg Prod.fst hp
    have hm : e'.memo = e.memo := congrArg Prod.snd hp
    rw [hm] at hcell
    rw [hr]
    exact hl hash e cell v he hcell

/-- A query adds what is computed from scratch where it is asked. -/
theorem Remembers.ask (hl : Remembers keys seen l) (q : AmountQuery) :
    Remembers keys (fun l₀ chain₀ => seen l₀ chain₀ ∨ l₀ = l ∧ chain₀ = chain)
      (q.ask keys chain l).2 := by
  have fills : Fills keys chain l (q.ask keys chain l).2 := fills_ask q l
  intro hash e' cell v he' hcell
  have same : ∀ {e}, l.entry? hash = some e → e.record = e'.record := by
    intro e he
    have h : (l.entry? hash).map Entry.markDirty = some e'.markDirty := by
      rw [← entry?_markDirty, ← fills.markDirty_eq, entry?_markDirty, he', Option.map_some]
    rw [he, Option.map_some] at h
    have h : e.markDirty = e'.markDirty := Option.some.inj h
    show e.markDirty.record = e'.markDirty.record
    rw [h]
  rcases fills.cells ⟨e', he', hcell⟩ with ⟨e, he, hold⟩ | ⟨e, he, hcons, hfresh⟩
  · obtain ⟨l₀, chain₀, e₀, hseen, he₀, hr, rest⟩ := hl hash e cell v he hold
    exact ⟨l₀, chain₀, e₀, .inl hseen, he₀, hr.trans (same he), rest⟩
  · exact ⟨l, chain, e, .inr ⟨rfl, rfl⟩, he, same he, hcons, hfresh⟩

/-- At some step of the run a query is put to the ledger, under the view. -/
def AskedIn (l : Ledger) (steps : List (Surroundings × Operation)) (l₀ : Ledger)
    (chain : ChainView) : Prop :=
  ∃ before s q later, steps = before ++ (s, .ask q) :: later ∧ l₀ = l.after before ∧
    chain = s.chain.toChainView

/-- A query in the rest of a run is one in the run. -/
theorem AskedIn.cons {l₀ : Ledger} {steps : List (Surroundings × Operation)} {s : Surroundings}
    {op : Operation} (h : AskedIn (op.apply s l) steps l₀ chain) :
    AskedIn l ((s, op) :: steps) l₀ chain := by
  obtain ⟨before, s', q, later, rfl, rfl, rfl⟩ := h
  exact ⟨(s, op) :: before, s', q, later, rfl, rfl, rfl⟩

/-- Under the same keys, what is remembered after a run was remembered before it, or computed at one
of its queries. -/
theorem after_remembers : ∀ {steps : List (Surroundings × Operation)},
    (∀ step ∈ steps, step.1.keys = keys) → ∀ {l : Ledger} {seen : Ledger → ChainView → Prop},
    Remembers keys seen l →
      Remembers keys (fun l₀ chain => seen l₀ chain ∨ AskedIn l steps l₀ chain) (l.after steps)
  | [], _, _, _, hl => hl.imp fun _ _ => .inl
  | (s, op) :: rest, hkeys, l, seen, hl => by
    have hrest := fun step hstep => hkeys step (List.mem_cons_of_mem _ hstep)
    have first : Remembers keys (fun l₀ chain => seen l₀ chain ∨
        AskedIn l ((s, op) :: rest) l₀ chain) (op.apply s l) := by
      by_cases hop : ∃ q, op = .ask q
      · obtain ⟨q, rfl⟩ := hop
        obtain rfl := hkeys (s, .ask q) List.mem_cons_self
        have asked : Remembers s.keys
            (fun l₀ chain => seen l₀ chain ∨ l₀ = l ∧ chain = s.chain.toChainView)
            (q.ask s.keys s.chain.toChainView l).2 := hl.ask q
        refine asked.imp fun l₀ chain h => ?_
        rcases h with h | ⟨rfl, rfl⟩
        · exact .inl h
        · exact .inr ⟨[], s, q, rest, rfl, rfl, rfl⟩
      · exact (hl.imp fun _ _ => .inl).of_memoKept (memoKept_apply s (fun q h => hop ⟨q, h⟩) l)
    refine (after_remembers hrest first).imp fun l₀ chain h => ?_
    rcases h with (h | h) | h
    · exact .inl h
    · exact .inr h
    · exact .inr h.cons

end Ledger
end ShieldedLedger
