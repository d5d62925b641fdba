import ShieldedLedger.Proofs.Agree

/-!
# Bare ledgers

Nothing that the ledger does to records depends on when they were received, on memoized amounts or
on the bytes in the store. So it makes no difference whether these are forgotten before an operation
or after it: `l.bare` is the ledger without them, and each operation has a lemma that moves `bare`
across it.

Two operations are `Alike` if from ledgers that are equal when bare they have the same outcome and
leave such ledgers behind. Programs of operations are alike if their operations are (`Alike.bind`),
and so is taking in a record in a block whose time two views of the chain agree on, whatever the
clock shows (`alike_addIfRelevant`).
-/

namespace ShieldedLedger

/-! ## Commuting with a change of the state -/

/-- The operation does to what `φ` makes of a state what it does to the state. -/
def Commutes {σ ε α : Type} (φ : σ → σ) (op : ExceptT ε (StateM σ) α) : Prop :=
  ∀ s, op (φ s) = ((op s).1, φ (op s).2)

namespace Commutes

variable {σ ε α β : Type} {φ : σ → σ}

/-- Two operations in a row commute with a change of the state if each does. -/
theorem bind {op : ExceptT ε (StateM σ) α} {f : α → ExceptT ε (StateM σ) β} (hop : Commutes φ op)
    (hf : ∀ a, Commutes φ (f a)) : Commutes φ (op >>= f) := by
  intro s
  have first := hop s
  cases h : op s with
  | mk outcome s₁ =>
    rw [h] at first
    cases outcome with
    | ok a => rw [bind_of_ok h, bind_of_ok first, hf]
    | error e => rw [bind_of_error h, bind_of_error first]

/-- A loop of operations that commute commutes. -/
theorem forM {f : α → ExceptT ε (StateM σ) PUnit} (hf : ∀ a, Commutes φ (f a)) :
    ∀ items : List α, Commutes φ (items.forM f)
  | [] => fun _ => rfl
  | a :: rest => bind (hf a) fun _ => forM hf rest

/-- A change of the state that commutes is an operation that does. -/
theorem modify {f : σ → σ} (h : ∀ s, f (φ s) = φ (f s)) :
    Commutes φ (modify f : ExceptT ε (StateM σ) PUnit) := fun s =>
  congrArg (fun s => (Except.ok PUnit.unit, s)) (h s)

/-- The state may be read if what is done then does not tell the states apart. -/
theorem get_bind {f : σ → ExceptT ε (StateM σ) α} (h : ∀ s, f (φ s) = f s)
    (hf : ∀ s, Commutes φ (f s)) : Commutes φ (MonadState.get >>= f) := by
  intro s
  show f (φ s) (φ s) = _
  rw [h, hf]
  rfl

end Commutes

namespace Entry

/-- The entry without the time it was received. -/
def undated (e : Entry) : Entry := { e with info := { e.info with timeReceived := 0 } }

/-- The entry without the time it was received and without memoized amounts. -/
def bare (e : Entry) : Entry := e.undated.markDirty

end Entry

namespace Ledger

/-- The ledger with its entries bare, and of its store only what it refuses. -/
def bare (l : Ledger) : Ledger :=
  { l.mapEntries Entry.bare with store := { Store.empty with refused := l.store.refused } }

variable {l l' : Ledger}

/-! ## Reading -/

@[simp] theorem entry?_bare (l : Ledger) (hash : Hash256) :
    l.bare.entry? hash = (l.entry? hash).map Entry.bare :=
  entry?_mapEntries _ _ _

@[simp] theorem spendersOf_bare (l : Ledger) (key : SpendKey) :
    l.bare.spendersOf key = l.spendersOf key := rfl

@[simp] theorem contains_bare (l : Ledger) (hash : Hash256) :
    l.bare.entries.contains hash = l.entries.contains hash := by
  show (l.bare.entry? hash).isSome = (l.entry? hash).isSome
  simp

@[simp] theorem output?_bare (l : Ledger) (outpoint : OutPoint) :
    l.bare.output? outpoint = l.output? outpoint := by
  simp [output?, Option.bind_map, Function.comp_def, Entry.bare, Entry.undated, Entry.markDirty]

@[simp] theorem note?_bare (l : Ledger) (location : NoteLocation) :
    l.bare.note? location = l.note? location := by
  simp [note?, Option.bind_map, Function.comp_def, Entry.bare, Entry.undated, Entry.markDirty]

@[simp] theorem notes_bare (l : Ledger) : l.bare.notes = l.notes := by
  simp [notes, bare, mapEntries, SortedMap.values, SortedMap.mapValues, List.flatMap_map,
    Function.comp_def, Entry.bare, Entry.undated, Entry.markDirty]

/-! ## Changing entries -/

/-- A change of every entry that commutes with making it bare makes a bare ledger of a bare one. -/
theorem bare_mapEntries (g : Entry → Entry) (hg : ∀ e, (g e).bare = g e.bare) :
    (l.mapEntries g).bare = l.bare.mapEntries g := by
  simp [bare, mapEntries, SortedMap.mapValues_mapValues, hg]

/-- So does such a change of one entry. -/
theorem bare_modifyEntry (hash : Hash256) (g : Entry → Entry) (hg : ∀ e, (g e).bare = g e.bare) :
    (l.modifyEntry hash g).bare = l.bare.modifyEntry hash g := by
  simp [bare, mapEntries, modifyEntry, SortedMap.mapValues_modify l.entries hash hg]

/-- Steps that commute with making the ledger bare do so one after the other. -/
theorem bare_foldl {α : Type} {step : Ledger → α → Ledger}
    (h : ∀ l a, (step l a).bare = step l.bare a) (items : List α) (l : Ledger) :
    (items.foldl step l).bare = items.foldl step l.bare :=
  (List.foldl_hom bare fun l a => (h l a).symm).symm

/-- Forgetting memoized amounts makes no difference. -/
theorem bare_modifyEntry_markDirty (l : Ledger) (hash : Hash256) :
    (l.modifyEntry hash Entry.markDirty).bare = l.bare := by
  rw [bare_modifyEntry hash Entry.markDirty fun _ => rfl]
  simp [bare, mapEntries, modifyEntry, SortedMap.modify, SortedMap.mapValues_mapValues,
    Entry.bare, Entry.markDirty]

/-- Bare, a ledger has no memos left to forget. -/
@[simp] theorem bare_markAffectedDirty (l : Ledger) (r : Record) :
    (l.markAffectedDirty r).bare = l.bare := by
  have marked : ∀ (hashes : List Hash256) (l : Ledger),
      (hashes.foldl (fun l hash => l.modifyEntry hash Entry.markDirty) l).bare = l.bare := by
    intro hashes
    induction hashes with
    | nil => exact fun _ => rfl
    | cons hash rest ih => exact fun l => (ih _).trans (bare_modifyEntry_markDirty l hash)
  exact marked _ l

/-! ## Registration -/

/-- The earliest item is found at the same place if the items are replaced by others in the same
order. -/
theorem earliest?_map {α β : Type} {before : α → α → Bool} {before' : β → β → Bool} {g : α → β}
    (h : ∀ a b, before' (g a) (g b) = before a b) (items : List α) :
    earliest? before' (items.map g) = (earliest? before items).map g := by
  cases items with
  | nil => rfl
  | cons a rest =>
    show some _ = some _
    rw [List.foldl_map]
    refine congrArg some (List.foldl_hom g fun best b => ?_)
    rw [h]
    split <;> rfl

/-- The oldest of some entries is the same one when all are bare: its place in the order is left. -/
@[simp] theorem oldest?_bare (l : Ledger) (owners : List Hash256) :
    l.bare.oldest? owners = (l.oldest? owners).map Entry.bare := by
  have entries : owners.filterMap l.bare.entry? = (owners.filterMap l.entry?).map Entry.bare := by
    rw [List.map_filterMap, funext (entry?_bare l)]
  unfold oldest?
  rw [entries]
  exact earliest?_map (fun _ _ => rfl) _

/-- Aligning what rivals know goes the same way on a bare ledger. -/
@[simp] theorem bare_alignInfo (l : Ledger) (owners : List Hash256) :
    (l.alignInfo owners).bare = l.bare.alignInfo owners := by
  unfold alignInfo
  rw [oldest?_bare]
  cases l.oldest? owners with
  | none => rfl
  | some oldest =>
    refine bare_foldl (fun l owner => bare_modifyEntry owner _ fun _ => ?_) _ _
    rfl

@[simp] theorem bare_registerSpend (hash : Hash256) (l : Ledger) (key : SpendKey) :
    (registerSpend hash l key).bare = registerSpend hash l.bare key := by
  unfold registerSpend
  rw [spendersOf_bare]
  dsimp only
  generalize (if (l.spendersOf key).contains hash then _ else _ : List Hash256) = owners
  split
  · refine (bare_foldl (fun l owner =>
      bare_modifyEntry owner Entry.markDirty fun _ => rfl) _ _).trans ?_
    rw [bare_alignInfo]
    rfl
  · rfl

@[simp] theorem bare_registerSpends (l : Ledger) (hash : Hash256) :
    (l.registerSpends hash).bare = l.bare.registerSpends hash := by
  unfold registerSpends
  rw [entry?_bare]
  cases l.entry? hash with
  | none => rfl
  | some e => exact bare_foldl (fun l key => bare_registerSpend hash l key) _ _

@[simp] theorem bare_indexEntry (l : Ledger) (hash : Hash256) :
    (l.indexEntry hash).bare = l.bare.indexEntry hash := by
  unfold indexEntry
  rw [entry?_bare]
  cases l.entry? hash <;> rfl

/-! ## Chain updates -/

@[simp] theorem bare_mapNotes (l : Ledger) (g : NoteData → NoteData) :
    (l.mapNotes g).bare = l.bare.mapNotes g := bare_mapEntries _ fun _ => rfl

@[simp] theorem bare_openWitnesses (l : Ledger) (height : Int) :
    (l.openWitnesses height).bare = l.bare.openWitnesses height :=
  let limit := l.settings.witnessLimit
  congrArg (fun m : Ledger =>
      { m with cacheSize := if l.cacheSize < limit then l.cacheSize + 1 else l.cacheSize })
    (bare_mapNotes l fun d => if d.isBehind height then d.openWitness limit else d)

@[simp] theorem bare_settleWitnesses (l : Ledger) (height : Int) :
    (l.settleWitnesses height).bare = l.bare.settleWitnesses height := bare_mapNotes l _

@[simp] theorem bare_modifyNote (l : Ledger) (location : NoteLocation)
    (g : NoteData → NoteData) :
    (l.modifyNote location g).bare = l.bare.modifyNote location g :=
  bare_modifyEntry _ _ fun _ => rfl

/-- A walk over the notes goes the same way on a bare ledger, and ends in the same state. -/
@[simp] theorem bare_mapNotesAccum {σ : Type} (l : Ledger) (f : σ → NoteData → NoteData × σ)
    (s : σ) : l.bare.mapNotesAccum f s =
      ((l.mapNotesAccum f s).1.bare, (l.mapNotesAccum f s).2) := by
  let walk := fun (s : σ) (_ : Hash256) (e : Entry) =>
    let walked := e.notes.mapAccum (fun s _ d => f s d) s
    (({ e with notes := walked.1 } : Entry), walked.2)
  have walked : (l.entries.mapValues fun _ => Entry.bare).mapAccum walk s = _ :=
    SortedMap.mapAccum_mapValues (f := walk) (fun _ _ _ => rfl) s
  have walked : l.bare.mapNotesAccum f s = _ :=
    congrArg (fun walked => ({ l.bare with entries := walked.1 }, walked.2)) walked
  exact walked

/-- Connecting a block to a bare ledger has the same faults. -/
@[simp] theorem connectFault?_bare (l : Ledger) (height : Int) :
    l.bare.connectFault? height = l.connectFault? height := by
  unfold connectFault?
  rw [notes_bare]
  rfl

/-- On a bare ledger, the same notes need a witness. -/
@[simp] theorem needsWitness_bare (l : Ledger) (location : NoteLocation) (height : Int) :
    l.bare.needsWitness location height = l.needsWitness location height := by
  simp [needsWitness]

/-- The notes of a bare ledger take a leaf, or lack room for it, as the others do. -/
@[simp] theorem appendToNotes_bare (l : Ledger) (height : Int) (leaf : Hash256) :
    l.bare.appendToNotes height leaf =
      ((l.appendToNotes height leaf).1.bare, (l.appendToNotes height leaf).2) := by
  simp only [appendToNotes, bare_mapNotesAccum]

/-- The state of a chain update with its ledger bare. -/
def bareTip (s : TipState) : TipState := { s with ledger := s.ledger.bare }

/-- Appending a leaf of a block commutes with making the ledger bare. -/
theorem commutes_appendBlockLeaf (height : Int) (leaf : NoteLocation × Hash256) :
    Commutes bareTip (appendBlockLeaf height leaf) := by
  intro s
  simp only [appendBlockLeaf, bareTip, needsWitness_bare, appendToNotes_bare]
  cases s.tree.append? sproutHash leaf.2 with
  | none => rfl
  | some tree =>
    cases s.ledger.appendToNotes height leaf.2 with
    | mk l fits =>
      cases fits with
      | false => rfl
      | true => cases s.ledger.needsWitness leaf.1 height <;> simp

/-- Connecting a block commutes with making the ledger bare. -/
theorem commutes_connectBlock (height : Int) (block : Block) :
    Commutes bareTip (connectBlock height block) := by
  refine Commutes.get_bind (fun s => ?_) fun s => ?_
  · simp only [bareTip, connectFault?_bare]
  cases s.ledger.connectFault? height with
  | some fault => exact fun _ => rfl
  | none =>
    refine Commutes.bind (Commutes.modify fun s => ?_) fun _ =>
      Commutes.bind (Commutes.forM (commutes_appendBlockLeaf height) _) fun _ =>
        Commutes.modify fun s => ?_ <;>
    simp [bareTip]

/-- Connecting a block does not depend on what is forgotten. -/
theorem commutes_tipOn_connect (tree : NoteTree) (index : BlockIndex) (block : Block) :
    Commutes bare (tipOn tree (chainTip index block true)) := fun l =>
  congrArg (fun ended : Except Failure Unit × TipState => (ended.1, ended.2.ledger))
    (commutes_connectBlock index.height block ⟨l, tree⟩)

/-! ## Alike operations -/

/-- Two outcomes are the same failure or related results. -/
def SameOutcome {ε α β : Type} (R : α → β → Prop) : Except ε α → Except ε β → Prop
  | .ok a, .ok b => R a b
  | .error e, .error e' => e = e'
  | _, _ => False

/-- From ledgers that are equal when bare, the operations have the same outcome and leave such
ledgers behind. -/
def Alike {α β : Type} (R : α → β → Prop) (op : LedgerOp α) (op' : LedgerOp β) : Prop :=
  ∀ l l' : Ledger, l.bare = l'.bare →
    SameOutcome R (op l).1 (op' l').1 ∧ (op l).2.bare = (op' l').2.bare

namespace Alike

variable {α α' β β' : Type} {R : α → α' → Prop} {S : β → β' → Prop}

theorem pure {a : α} {a' : α'} (h : R a a') :
    Alike R (Pure.pure a : LedgerOp α) (Pure.pure a' : LedgerOp α') := fun _ _ hl => ⟨h, hl⟩

theorem get : Alike (fun l l' => l.bare = l'.bare) (MonadState.get : LedgerOp Ledger)
    MonadState.get := fun _ _ hl => ⟨hl, hl⟩

/-- Sequences of alike operations are alike. -/
theorem bind {op : LedgerOp α} {op' : LedgerOp α'} {f : α → LedgerOp β} {f' : α' → LedgerOp β'}
    (hop : Alike R op op') (hf : ∀ a a', R a a' → Alike S (f a) (f' a')) :
    Alike S (op >>= f) (op' >>= f') := by
  intro l l' hl
  obtain ⟨outcome, left⟩ := hop l l' hl
  cases h : op l with
  | mk o l₁ =>
    cases h' : op' l' with
    | mk o' l₁' =>
      rw [h, h'] at outcome left
      cases o <;> cases o'
      · rw [bind_of_error h, bind_of_error h']
        exact ⟨outcome, left⟩
      · cases outcome
      · cases outcome
      · rw [bind_of_ok h, bind_of_ok h']
        exact hf _ _ outcome _ _ left

/-- An answer that is not compared may be given in the end. -/
theorem answer {op : LedgerOp α} {op' : LedgerOp α'} (h : Alike R op op') (b : β) :
    Alike (fun _ _ => True) (op >>= fun _ => Pure.pure b) op' := by
  intro l l' hl
  obtain ⟨outcome, left⟩ := h l l' hl
  cases ho : op l with
  | mk o l₁ =>
    rw [ho] at outcome left
    cases o with
    | error e =>
      rw [bind_of_error ho]
      cases ho' : (op' l').1 with
      | error e' =>
        rw [ho'] at outcome
        exact ⟨outcome, left⟩
      | ok a' =>
        rw [ho'] at outcome
        cases outcome
    | ok a =>
      rw [bind_of_ok ho]
      cases ho' : (op' l').1 with
      | error e' =>
        rw [ho'] at outcome
        cases outcome
      | ok a' => exact ⟨trivial, left⟩

/-- What does not depend on what is forgotten is like itself. -/
theorem of_commutes {op : LedgerOp α} (h : Commutes bare op) : Alike Eq op op := by
  have self : ∀ outcome : Except Failure α, SameOutcome Eq outcome outcome := by
    intro outcome
    cases outcome <;> rfl
  intro l l' hl
  have same : op l.bare = op l'.bare := congrArg op hl
  rw [h, h, Prod.mk.injEq] at same
  rw [same.1]
  exact ⟨self _, same.2⟩

/-- A question is answered alike. -/
theorem ask {f : Ledger → Except LedgerError α} (h : ∀ l, f l.bare = f l) :
    Alike Eq (LedgerOp.ask f) (LedgerOp.ask f) := by
  refine of_commutes fun l => ?_
  unfold LedgerOp.ask
  rw [h]
  cases f l <;> rfl

end Alike

/-! ## Taking in records -/

/-- Whether a record can be written depends on the record and on what the store refuses. -/
theorem map_refused_writeEntry (store : Store) (hash : Hash256) (e : Entry) :
    (store.writeEntry hash e).map Store.refused = (store.allow .entry >>= fun _ =>
      match e.record.encode? with
      | none => .error .unencodable
      | some _ => .ok store.refused) := by
  unfold Store.writeEntry
  cases store.allow .entry with
  | error err => rfl
  | ok allowed =>
    have written : ∀ f, (store.update f).refused = store.refused := by
      intro f
      unfold Store.update
      split <;> rfl
    show Except.map Store.refused (match e.encode? with
      | none => _
      | some bytes => _) = _
    unfold Entry.encode?
    cases e.record.encode? with
    | none => rfl
    | some bytes => exact congrArg Except.ok (written _)

/-- A bare entry is put into a bare ledger as the entry is put into the ledger. -/
theorem putEntry_bare (l : Ledger) (e : Entry) (changed : Bool) :
    (l.bare.putEntry e.bare changed).map bare = (l.putEntry e changed).map bare := by
  have same : ∀ store store' : Store, store'.refused = store.refused →
      bare { l.bare with entries := l.bare.entries.insert e.hash e.bare, store := store' } =
        bare { l with entries := l.entries.insert e.hash e, store } := by
    intro store store' h
    simp [bare, mapEntries, SortedMap.mapValues_insert, SortedMap.mapValues_mapValues, h,
      Entry.bare, Entry.undated, Entry.markDirty]
  cases changed with
  | false => exact congrArg Except.ok (same l.store l.bare.store rfl)
  | true =>
    have written : (l.bare.store.writeEntry e.hash e.bare).map Store.refused =
        (l.store.writeEntry e.hash e).map Store.refused := by
      rw [map_refused_writeEntry, map_refused_writeEntry]
      rfl
    unfold putEntry
    rw [if_pos rfl, if_pos rfl]
    show Except.map bare (l.bare.store.writeEntry e.hash e.bare >>= _) = _
    cases h : l.store.writeEntry e.hash e <;>
      cases h' : l.bare.store.writeEntry e.hash e.bare <;> rw [h, h'] at written
    · exact congrArg Except.error (Except.error.inj written)
    · cases written
    · cases written
    · exact congrArg Except.ok (same _ _ (Except.ok.inj written))

/-- What becomes of putting an entry depends on the ledger and the entry only when bare. -/
theorem putEntry_congr (hl : l.bare = l'.bare) {e e' : Entry} (he : e.bare = e'.bare)
    (changed : Bool) : (l.putEntry e changed).map bare = (l'.putEntry e' changed).map bare := by
  rw [← putEntry_bare, hl, he, putEntry_bare]

/-- What is put into the ledgers decides whether the insertions are alike. -/
theorem alike_of_put (hash : Hash256) {put put' : Ledger → Except StoreError Ledger}
    (h : ∀ l l' : Ledger, l.bare = l'.bare → (put l).map bare = (put' l').map bare) :
    Alike Eq
      (fun l => match put l with
        | .error e => ((.error (.error (.store e)) : Except Failure Unit), l)
        | .ok l => (.ok (), l.indexEntry hash))
      (fun l => match put' l with
        | .error e => ((.error (.error (.store e)) : Except Failure Unit), l)
        | .ok l => (.ok (), l.indexEntry hash)) := by
  intro l l' hl
  have same := h l l' hl
  dsimp only
  cases hp : put l <;> cases hp' : put' l' <;> rw [hp, hp'] at same
  · obtain rfl := Except.error.inj same
    exact ⟨rfl, hl⟩
  · cases same
  · cases same
  · rw [bare_indexEntry, bare_indexEntry, Except.ok.inj same]
    exact ⟨rfl, rfl⟩

/-- Both views know the time of the block, and it is the same. -/
def SameTime (view view' : ChainView) (hash : Hash256) : Prop :=
  ∃ time, view.timeOf? hash = some time ∧ view'.timeOf? hash = some time

/-- In a block whose time two views agree on, a record is put into the ledger alike, whatever the
clock shows. -/
theorem alike_addEntry {view view' : ChainView} {incoming : Entry}
    (htime : SameTime view view' incoming.link.block) (now now' : Int64) :
    Alike Eq (addEntry view now incoming) (addEntry view' now' incoming) := by
  obtain ⟨time, h, h'⟩ := htime
  refine alike_of_put incoming.hash fun l l' hl => ?_
  have held : (l.entry? incoming.hash).map Entry.bare =
      (l'.entry? incoming.hash).map Entry.bare := by
    rw [← entry?_bare, hl, entry?_bare]
  have order : l.nextOrder = l'.nextOrder := by
    show l.bare.nextOrder = l'.bare.nextOrder
    rw [hl]
  cases hs : l.entry? incoming.hash with
  | none =>
    cases hs' : l'.entry? incoming.hash with
    | some stored' =>
      rw [hs, hs'] at held
      cases held
    | none =>
      have received : (incoming.received view now l.nextOrder).markDirty.bare =
          (incoming.received view' now' l'.nextOrder).markDirty.bare := by
        simp [Entry.received, Entry.bare, Entry.undated, Entry.markDirty, h, h', order]
      -- What follows the put, the next order and the spends, goes the same way on a bare ledger.
      have moved : ∀ put : Except StoreError Ledger,
          (put.map fun m : Ledger => { m with nextOrder := m.nextOrder + 1 }.registerSpends
            incoming.hash).map bare = (put.map bare).map fun m : Ledger =>
              { m with nextOrder := m.nextOrder + 1 }.registerSpends incoming.hash := by
        intro put
        cases put with
        | error e => rfl
        | ok m => exact congrArg Except.ok (bare_registerSpends _ _)
      dsimp only
      rw [moved, putEntry_congr hl received true, ← moved]
  | some stored =>
    cases hs' : l'.entry? incoming.hash with
    | none =>
      rw [hs, hs'] at held
      cases held
    | some stored' =>
      rw [hs, hs'] at held
      have held : stored.bare = stored'.bare := Option.some.inj held
      -- Merging reads neither the memo nor the date, so both entries have changed, or neither has.
      have differs : ∀ e : Entry, (e.merge incoming).differs e =
          (e.bare.merge incoming).differs e.bare := fun _ => rfl
      dsimp only
      rw [differs stored, held, ← differs stored']
      refine putEntry_congr hl ?_ _
      have merged : ∀ e : Entry, (e.merge incoming).markDirty.bare =
          (e.bare.merge incoming).markDirty.bare := fun _ => rfl
      rw [merged, held, ← merged]

/-- Ledgers that are equal when bare have entries for the same hashes. -/
theorem contains_congr (hl : l.bare = l'.bare) (hash : Hash256) :
    l.entries.contains hash = l'.entries.contains hash := by
  rw [← contains_bare, hl, contains_bare]

/-- Whether a record concerns the wallet does not depend on what is forgotten. -/
theorem concerns_bare (keys : KeyView) (l : Ledger) (r : Record) (notes : NoteMap) :
    concerns keys l.bare r notes = concerns keys l r notes := by
  have debit : l.bare.inputDebit keys .all = l.inputDebit keys .all := by
    funext i
    simp [inputDebit]
  unfold concerns recordDebit
  rw [contains_bare, debit]
  rfl

/-- The link to a block names the block. -/
theorem block_toBlock (block : Block) (hash : Hash256) :
    (MerkleLink.toBlock block hash).block = block.hash := by
  unfold MerkleLink.toBlock
  split <;> rfl

/-- A record in a block whose time two views agree on is taken in alike, whatever the clock
shows. -/
theorem alike_addIfRelevant {view view' : ChainView} {block : Block}
    (htime : SameTime view view' block.hash) (now now' : Int64) (keys : KeyView) (r : Record)
    (update : Bool) :
    Alike Eq (addIfRelevant keys view now (Entry.ofRecord r) (some block) update)
      (addIfRelevant keys view' now' (Entry.ofRecord r) (some block) update) := by
  unfold addIfRelevant
  refine Alike.bind Alike.get fun l l' hl => ?_
  rw [contains_congr hl]
  split
  · exact Alike.pure rfl
  refine Alike.bind (Alike.ask fun l => concerns_bare keys l _ _) ?_
  rintro relevant _ rfl
  split
  · exact Alike.pure rfl
  refine Alike.bind (alike_addEntry ?_ now now') fun _ _ _ => Alike.pure rfl
  rwa [block_toBlock]

end Ledger
end ShieldedLedger
