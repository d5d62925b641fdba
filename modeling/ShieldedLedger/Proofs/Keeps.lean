import ShieldedLedger.Wallet.Rescan

/-!
# Properties that operations keep

An operation on a state may fail halfway, and what it has changed so far stays changed. `Keeps I op`
says that `op` leads from a state with the property `I` to one with `I`, whether it succeeds or not.
A program of operations keeps what each of its operations keeps (`Keeps.bind`, `Keeps.forM`,
`Keeps.foldlM`), so for the ledger it is enough to look at the operations that are not put together
from others: the walk over the chain keeps what taking in an entry and moving the tip keep
(`keeps_rescan`), and taking in a record keeps what inserting an entry keeps
(`keeps_addIfRelevant`).

A relation between the state before and the state after is the property of being so related to a
fixed state.
-/

namespace ShieldedLedger

/-- The operation keeps the property, whether it succeeds or not. -/
def Keeps {σ ε α : Type} (I : σ → Prop) (op : ExceptT ε (StateM σ) α) : Prop :=
  ∀ s, I s → I (op s).2

/-- A sequence whose first part succeeds goes on where that part ends. -/
theorem bind_of_ok {σ ε α β : Type} {op : ExceptT ε (StateM σ) α} {f : α → ExceptT ε (StateM σ) β}
    {s s' : σ} {a : α} (h : op s = (.ok a, s')) : (op >>= f) s = f a s' := by
  show ExceptT.bindCont f (op s).1 (op s).2 = _
  rw [h]
  rfl

/-- One whose first part fails ends there. -/
theorem bind_of_error {σ ε α β : Type} {op : ExceptT ε (StateM σ) α}
    {f : α → ExceptT ε (StateM σ) β} {s s' : σ} {e : ε} (h : op s = (.error e, s')) :
    (op >>= f) s = (.error e, s') := by
  show ExceptT.bindCont f (op s).1 (op s).2 = _
  rw [h]
  rfl

/-- A sequence that succeeds has parts that do. -/
theorem exists_of_bind_ok {σ ε α β : Type} {op : ExceptT ε (StateM σ) α}
    {f : α → ExceptT ε (StateM σ) β} {s : σ} {b : β} (h : ((op >>= f) s).1 = .ok b) :
    ∃ a s', op s = (.ok a, s') ∧ (f a s').1 = .ok b := by
  cases hop : op s with
  | mk outcome s' =>
    cases outcome with
    | ok a => exact ⟨a, s', rfl, by rwa [bind_of_ok hop] at h⟩
    | error e =>
      rw [bind_of_error hop] at h
      cases h

/-- What is computed from a result has a result only if both have one. -/
theorem exists_of_bind_eq_ok {ε α β : Type} {x : Except ε α} {f : α → Except ε β} {b : β}
    (h : x >>= f = .ok b) : ∃ a, x = .ok a ∧ f a = .ok b := by
  cases x with
  | error e => cases h
  | ok a => exact ⟨a, rfl, h⟩

/-- An outcome and the state that is left, told apart. -/
theorem eq_of_parts {α σ : Type} {p : α × σ} {a : α} {s : σ} (ha : p.1 = a) (hs : p.2 = s) :
    p = (a, s) := by
  rw [← ha, ← hs]

namespace Keeps

variable {σ ε α β : Type} {I : σ → Prop}

/-- What is kept is true of the state at the end, whatever the outcome. -/
theorem result {op : ExceptT ε (StateM σ) α} (hop : Keeps I op) {s s' : σ} {outcome : Except ε α}
    (hs : I s) (h : op s = (outcome, s')) : I s' := by
  have kept := hop s hs
  rwa [h] at kept

theorem pure (a : α) : Keeps I (Pure.pure a : ExceptT ε (StateM σ) α) := fun _ h => h

/-- Invariants that are kept one by one are kept together. -/
theorem and {J : σ → Prop} {op : ExceptT ε (StateM σ) α} (hI : Keeps I op) (hJ : Keeps J op) :
    Keeps (fun s => I s ∧ J s) op := fun s hs => ⟨hI s hs.1, hJ s hs.2⟩

/-- To fail keeps everything. -/
theorem throw (e : ε) : Keeps I (MonadExcept.throw e : ExceptT ε (StateM σ) α) := fun _ h => h

theorem get : Keeps I (MonadState.get : ExceptT ε (StateM σ) σ) := fun _ h => h

/-- A change of the state keeps what the change itself keeps. -/
theorem modify {f : σ → σ} (hf : ∀ s, I s → I (f s)) :
    Keeps I (modify f : ExceptT ε (StateM σ) PUnit) := hf

/-- A sequence keeps what its parts keep. -/
theorem bind {op : ExceptT ε (StateM σ) α} {f : α → ExceptT ε (StateM σ) β} (hop : Keeps I op)
    (hf : ∀ a, Keeps I (f a)) : Keeps I (op >>= f) := by
  intro s hs
  have h := hop s hs
  show I (ExceptT.bindCont f (op s).1 (op s).2).2
  cases (op s).1 with
  | ok a => exact hf a _ h
  | error e => exact h

/-- A loop over a list keeps what its body keeps. -/
theorem forM {f : α → ExceptT ε (StateM σ) PUnit} :
    ∀ items : List α, (∀ a ∈ items, Keeps I (f a)) → Keeps I (items.forM f)
  | [], _ => pure _
  | a :: rest, hf => bind (hf a List.mem_cons_self) fun _ =>
      forM rest fun b hb => hf b (List.mem_cons_of_mem _ hb)

/-- A loop that hands a value along keeps what its body keeps for each of the items. -/
theorem foldlM_of_mem {f : β → α → ExceptT ε (StateM σ) β} :
    ∀ (items : List α) (b : β), (∀ b, ∀ a ∈ items, Keeps I (f b a)) → Keeps I (items.foldlM f b)
  | [], b, _ => pure b
  | a :: rest, b, hf => bind (hf b a List.mem_cons_self) fun b =>
      foldlM_of_mem rest b fun b c hc => hf b c (List.mem_cons_of_mem _ hc)

/-- A loop with an accumulator keeps what each of its steps keeps. -/
theorem foldlM {f : β → α → ExceptT ε (StateM σ) β} (hf : ∀ b a, Keeps I (f b a))
    (items : List α) (b : β) : Keeps I (items.foldlM f b) :=
  foldlM_of_mem items b fun b a _ => hf b a

end Keeps

/-! ## How far a loop gets -/

/-- A loop that fails gets through some of its items, and fails at the next. -/
theorem exists_of_forM_error {σ ε α : Type} {f : α → ExceptT ε (StateM σ) PUnit} :
    ∀ {items : List α} {s s' : σ} {e : ε}, items.forM f s = (.error e, s') →
      ∃ done a rest s₁, items = done ++ a :: rest ∧ done.forM f s = (.ok (), s₁) ∧
        f a s₁ = (.error e, s')
  | [], _, _, _, h => nomatch h
  | a :: items, s, s', e, h => by
    replace h : (f a >>= fun _ => items.forM f) s = (.error e, s') := h
    cases hs : f a s with
    | mk outcome s₁ =>
      cases outcome with
      | error e' =>
        rw [bind_of_error hs] at h
        exact ⟨[], a, items, s, rfl, rfl, hs.trans h⟩
      | ok _ =>
        rw [bind_of_ok hs] at h
        obtain ⟨done, b, rest, s₂, rfl, hdone, hb⟩ := exists_of_forM_error h
        exact ⟨a :: done, b, rest, s₂, rfl, (bind_of_ok hs).trans hdone, hb⟩

/-- What each item adds to what the items before have brought about, all items of a loop that does
not fail bring about. -/
theorem of_forM_ok {σ ε α : Type} {f : α → ExceptT ε (StateM σ) PUnit} {R : List α → σ → Prop}
    (step : ∀ done a s s', R done s → f a s = (.ok (), s') → R (done ++ [a]) s') :
    ∀ {items done : List α} {s s' : σ}, R done s → items.forM f s = (.ok (), s') →
      R (done ++ items) s'
  | [], done, s, s', hs, h => by
    obtain rfl : s = s' := congrArg Prod.snd h
    rwa [List.append_nil]
  | a :: items, done, s, s', hs, h => by
    obtain ⟨_, s₁, ha, hrest⟩ := exists_of_bind_ok (congrArg Prod.fst h)
    rw [show (a :: items).forM f = f a >>= fun _ => items.forM f from rfl, bind_of_ok ha] at h
    have rest := of_forM_ok step (step done a s s₁ hs ha) h
    rwa [List.append_assoc] at rest

namespace Ledger

variable {I : Ledger → Prop}

/-- A refusal keeps everything. -/
theorem keeps_refuse {α : Type} (e : LedgerError) : Keeps I (LedgerOp.refuse e : LedgerOp α) :=
  fun _ h => h

/-- A question keeps everything, whether it is answered or refused. -/
theorem keeps_ask {α : Type} (f : Ledger → Except LedgerError α) : Keeps I (LedgerOp.ask f) := by
  intro l h
  unfold LedgerOp.ask
  cases f l with
  | ok a => exact h
  | error e => exact h

/-- A change of the ledger keeps what the change itself keeps. -/
theorem keeps_change {f : Ledger → Ledger} (hf : ∀ l, I l → I (f l)) :
    Keeps I (LedgerOp.change f) := hf

section
variable {keys : KeyView} {chain : ChainView} {now : Int64}

/-- Writing an entry fails if such writes are refused or its record has no encoding. Otherwise the
store goes on refusing what it refuses. -/
theorem writeEntry_outcomes (store : Store) (hash : Hash256) (entry : Entry) :
    (∃ e, store.writeEntry hash entry = .error e ∧
      (store.refused = some .entry ∨ entry.record.encode? = none)) ∨
    ∃ store', store.writeEntry hash entry = .ok store' ∧ store'.refused = store.refused ∧
      entry.record.encode? ≠ none := by
  unfold Store.writeEntry Store.allow
  split
  · next h => exact .inl ⟨_, rfl, .inl h⟩
  · cases hr : entry.record.encode? with
    | none =>
      have unencodable : entry.encode? = none := by simp [Entry.encode?, hr]
      rw [unencodable]
      exact .inl ⟨_, rfl, .inr rfl⟩
    | some bytes =>
      obtain ⟨encoded, h⟩ : ∃ encoded, entry.encode? = some encoded := by
        simp [Entry.encode?, hr]
      rw [h]
      refine .inr ⟨_, rfl, ?_, Option.some_ne_none _⟩
      unfold Store.update
      split <;> rfl

/-- An entry is put in and, if it has changed, written; or the store refuses, and nothing
happens. -/
theorem putEntry_outcomes (l : Ledger) (entry : Entry) (changed : Bool) :
    (∃ e, l.putEntry entry changed = .error e ∧
      (l.store.refused = some .entry ∨ entry.record.encode? = none)) ∨
    ∃ store, store.refused = l.store.refused ∧
      (changed = true → entry.record.encode? ≠ none) ∧ l.putEntry entry changed =
        .ok { l with entries := l.entries.insert entry.hash entry, store } := by
  unfold putEntry
  cases changed with
  | false => exact .inr ⟨l.store, rfl, nofun, rfl⟩
  | true =>
    rw [if_pos rfl]
    rcases writeEntry_outcomes l.store entry.hash entry with ⟨e, h, reason⟩ | ⟨store, h, same, enc⟩
    · rw [h]
      exact .inl ⟨e, rfl, reason⟩
    · rw [h]
      exact .inr ⟨store, same, fun _ => enc, rfl⟩

/-- The ledger with an entry that is new to it, before the entry is registered. -/
def withNew (l : Ledger) (e : Entry) (store : Store) : Ledger :=
  { l with entries := l.entries.insert e.hash e, nextOrder := l.nextOrder + 1, store }

/-- The ledger with another entry for a record it holds. -/
def withMerged (l : Ledger) (e : Entry) (store : Store) : Ledger :=
  { l with entries := l.entries.insert e.hash e, store }

/-- How adding an entry ends: the store refuses, because it refuses entries or because there is no
encoding, and the ledger is as it was; or the entry is inserted at the next place in the order and
registered; or what is new about it is added to the entry that is known. -/
theorem addEntry_outcomes (chain : ChainView) (now : Int64) (incoming : Entry) (l : Ledger) :
    (∃ e, addEntry chain now incoming l = (.error (.error (.store e)), l) ∧
      (l.store.refused = some .entry ∨
        ((l.entry? incoming.hash).getD incoming).record.encode? = none)) ∨
    (l.entry? incoming.hash = none ∧ incoming.record.encode? ≠ none ∧ ∃ store,
      store.refused = l.store.refused ∧ addEntry chain now incoming l =
        (.ok (), ((l.withNew (incoming.received chain now l.nextOrder).markDirty
          store).registerSpends incoming.hash).indexEntry incoming.hash)) ∨
    ∃ stored store, l.entry? incoming.hash = some stored ∧ store.refused = l.store.refused ∧
      addEntry chain now incoming l =
        (.ok (), (l.withMerged (stored.merge incoming).markDirty store).indexEntry
          incoming.hash) := by
  unfold addEntry
  dsimp only
  cases hs : l.entry? incoming.hash with
  | none =>
    dsimp only
    rcases putEntry_outcomes l (incoming.received chain now l.nextOrder).markDirty true with
      ⟨e, hp, reason⟩ | ⟨store, same, enc, hp⟩
    · rw [hp]
      exact .inl ⟨e, rfl, reason⟩
    · rw [hp]
      exact .inr (.inl ⟨rfl, enc rfl, store, same, rfl⟩)
  | some stored =>
    dsimp only
    rcases putEntry_outcomes l (stored.merge incoming).markDirty
      ((stored.merge incoming).differs stored) with ⟨e, hp, reason⟩ | ⟨store, same, -, hp⟩
    · rw [hp]
      exact .inl ⟨e, rfl, reason⟩
    · rw [hp]
      exact .inr (.inr ⟨stored, store, rfl, same, rfl⟩)

/-- What adding an entry leaves behind, in these three cases. -/
theorem addEntry_cases (chain : ChainView) (now : Int64) (incoming : Entry) (l : Ledger) :
    (addEntry chain now incoming l).2 = l ∨
    (l.entry? incoming.hash = none ∧ ∃ store, (addEntry chain now incoming l).2 =
      ((l.withNew (incoming.received chain now l.nextOrder).markDirty store).registerSpends
        incoming.hash).indexEntry incoming.hash) ∨
    ∃ stored store, l.entry? incoming.hash = some stored ∧ (addEntry chain now incoming l).2 =
      (l.withMerged (stored.merge incoming).markDirty store).indexEntry incoming.hash := by
  rcases addEntry_outcomes chain now incoming l with
    ⟨e, h, -⟩ | ⟨hnew, -, store, -, h⟩ | ⟨stored, store, hs, -, h⟩
  · exact .inl (congrArg Prod.snd h)
  · exact .inr (.inl ⟨hnew, store, congrArg Prod.snd h⟩)
  · exact .inr (.inr ⟨stored, store, hs, congrArg Prod.snd h⟩)

/-- Taking in a record keeps what inserting an entry for it keeps, with whatever link, and with its
own notes or those the keys find. -/
theorem keeps_addIfRelevant {incoming : Entry} {block : Option Block} {update : Bool}
    (h : ∀ notes link, notes = incoming.notes ∨ notes = incoming.record.findNotes keys →
      Keeps I (addEntry chain now { incoming with notes, link })) :
    Keeps I (addIfRelevant keys chain now incoming block update) := by
  unfold addIfRelevant
  refine Keeps.bind Keeps.get fun l => ?_
  split
  · exact Keeps.pure _
  refine Keeps.bind (keeps_ask _) fun relevant => ?_
  split
  · exact Keeps.pure _
  refine Keeps.bind ?_ fun _ => Keeps.pure _
  split <;> split
  · exact h _ _ (.inl rfl)
  · exact h _ _ (.inr rfl)
  · exact h _ _ (.inl rfl)
  · exact h _ _ (.inr rfl)

/-- A notification keeps what inserting an entry and forgetting memoized amounts keep. -/
theorem keeps_sync {r : Record} {block : Option Block}
    (h : ∀ notes link, notes = SortedMap.empty ∨ notes = r.findNotes keys →
      Keeps I (addEntry chain now { Entry.ofRecord r with notes, link }))
    (hm : ∀ l, I l → I (l.markAffectedDirty r)) : Keeps I (sync keys chain now r block) := by
  unfold sync
  refine Keeps.bind (keeps_addIfRelevant h) fun taken => ?_
  split
  · exact keeps_change hm
  · exact Keeps.pure _

/-- A chain update run on the ledger keeps a property of the ledger that it keeps whatever the
tree. -/
theorem keeps_tipOn {tree : NoteTree} {op : TipOp Unit} (h : Keeps (fun s => I s.ledger) op) :
    Keeps I (tipOn tree op) := fun l hl => h ⟨l, tree⟩ hl

/-- A leaf of a block keeps what it keeps to append it to the notes and to give a note its first
witness. -/
theorem keeps_appendBlockLeaf {height : Int} {leaf : NoteLocation × Hash256}
    (append : ∀ l, I l → I (l.appendToNotes height leaf.2).1)
    (first : ∀ l w, I l → I (l.modifyNote leaf.1 (·.withFirstWitness w height))) :
    Keeps (fun s => I s.ledger) (appendBlockLeaf height leaf) := by
  intro s hs
  have ht := append s.ledger hs
  unfold appendBlockLeaf
  split
  · exact hs
  · split
    · next he =>
      rw [he] at ht
      exact ht
    · next he =>
      rw [he] at ht
      dsimp only
      split
      · exact first _ _ ht
      · exact ht

/-- A chain update keeps what it keeps to change the notes as the parts of an update do. -/
theorem keeps_chainTip {index : BlockIndex} {block : Block} {added : Bool}
    (opening : ∀ l, I l → I (l.openWitnesses index.height))
    (append : ∀ l leaf, I l → I (l.appendToNotes index.height leaf).1)
    (first : ∀ l location w, I l → I (l.modifyNote location (·.withFirstWitness w index.height)))
    (settle : ∀ l, I l → I (l.settleWitnesses index.height))
    (drop : ∀ l, I l → I (l.dropWitnesses index.height)) :
    Keeps (fun s => I s.ledger) (chainTip index block added) := by
  unfold chainTip
  split
  · unfold connectBlock
    refine Keeps.bind Keeps.get fun s => ?_
    split
    · exact Keeps.throw _
    refine Keeps.bind (Keeps.modify fun s hs => opening _ hs) fun _ => ?_
    refine Keeps.bind (Keeps.forM _ fun leaf _ => ?_) fun _ => Keeps.modify fun s hs => settle _ hs
    exact keeps_appendBlockLeaf (fun l hl => append l leaf.2 hl) fun l w hl => first l leaf.1 w hl
  · intro s hs
    show I (disconnectBlock index.height s.ledger).2
    unfold disconnectBlock
    split
    · exact hs
    · exact drop _ hs

/-- A rescan keeps what taking in the records of its blocks and connecting these keep. -/
theorem keeps_rescan_of_blocks {source : ChainSource} {request : ScanRequest}
    (h : ∀ height index block, source.blockAt? height = some (index, block) →
      ∀ r ∈ block.records,
        Keeps I (addIfRelevant keys chain now (Entry.ofRecord r) (some block) request.update))
    (ht : ∀ height index block tree, source.blockAt? height = some (index, block) →
      Keeps I (tipOn tree (chainTip index block true))) :
    Keeps I (rescan keys chain now source request) := by
  have walked : ∀ count height summary,
      Keeps I (scanFrom keys chain now source request count height summary) := by
    intro count
    induction count with
    | zero => exact fun _ _ => Keeps.pure _
    | succ count ih =>
      intro height summary
      unfold scanFrom
      split
      · exact Keeps.pure _
      split
      · exact keeps_refuse _
      next index block hblock =>
      split
      · exact ih _ _
      refine Keeps.bind ?_ fun added => ih _ _
      unfold scanBlock
      refine Keeps.bind (Keeps.foldlM_of_mem _ _ fun added r hr => ?_) fun added => ?_
      · exact Keeps.bind (h _ _ _ hblock r hr) fun _ => Keeps.pure _
      split
      · exact keeps_refuse _
      · exact Keeps.bind (ht _ _ _ _ hblock) fun _ => Keeps.pure _
  exact walked _ _ _

/-- So it keeps what inserting an entry and connecting a block keep. -/
theorem keeps_rescan {source : ChainSource} {request : ScanRequest}
    (h : ∀ incoming : Entry, Keeps I (addEntry chain now incoming))
    (ht : ∀ index block, Keeps (fun s => I s.ledger) (chainTip index block true)) :
    Keeps I (rescan keys chain now source request) :=
  keeps_rescan_of_blocks (fun _ _ _ _ _ _ => keeps_addIfRelevant fun _ _ _ => h _)
    fun _ _ _ _ _ => keeps_tipOn (ht _ _)

end
end Ledger
end ShieldedLedger
