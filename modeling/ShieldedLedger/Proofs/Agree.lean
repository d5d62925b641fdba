import ShieldedLedger.Proofs.Keeps
import ShieldedLedger.Proofs.SortedMap
import ShieldedLedger.Wallet.Resend

/-!
# What an operation leaves alone

Most operations change one aspect of the entries and nothing else: a chain update the notes, a query
the memoized amounts, a notification of a known record the link. `Agree f l l'` says that `l'`
differs from `l` at most in what `f` does not read off the entries, in the notes' index, the locked
outputs, the witness cache size, the times of rebroadcasts and the store. A fact about a ledger that
depends on its spenders and on what `f` reads carries over along `Agree f`.
-/

namespace ShieldedLedger

/-- What is read off an entry does not depend on its notes. -/
def IgnoresNotes {β : Type} (f : Entry → β) : Prop := ∀ e notes, f { e with notes } = f e

/-- What is read off an entry depends on its notes at most by their places. -/
def IgnoresNoteData {β : Type} (f : Entry → β) : Prop :=
  ∀ e notes, SortedMap.keys notes = e.notes.keys → f { e with notes } = f e

/-- What ignores the notes altogether ignores what is kept of each. -/
theorem IgnoresNotes.ignoresNoteData {β : Type} {f : Entry → β} (hf : IgnoresNotes f) :
    IgnoresNoteData f := fun e notes _ => hf e notes

/-- What is read off an entry does not depend on its memoized amounts. -/
def IgnoresMemo {β : Type} (f : Entry → β) : Prop := ∀ e memo, f { e with memo } = f e

/-- What is read off an entry does not depend on its bookkeeping. -/
def IgnoresInfo {β : Type} (f : Entry → β) : Prop := ∀ e info, f { e with info } = f e

namespace Ledger

variable {β : Type} {f : Entry → β} {l l' l'' : Ledger}

/-! ## Entries after a change -/

/-- Mapping the entries maps what is found. -/
@[simp] theorem entry?_mapEntries (l : Ledger) (g : Entry → Entry) (hash : Hash256) :
    entry? (l.mapEntries g) hash = (l.entry? hash).map g :=
  SortedMap.get?_mapValues _ _ _

/-- A modification is seen under one hash only. -/
theorem entry?_modifyEntry (l : Ledger) (hash hash' : Hash256) (g : Entry → Entry) :
    entry? (l.modifyEntry hash g) hash' =
      if hash' = hash then (l.entry? hash').map g else l.entry? hash' :=
  SortedMap.get?_modify_eq_ite _ _ _ _

/-! ## Agreement -/

/-- The ledgers list the same spenders, give out the same place in the order next and have the same
settings, and their entries agree in what `f` reads. -/
structure Agree (f : Entry → β) (l l' : Ledger) : Prop where
  entries : ∀ hash, (l'.entry? hash).map f = (l.entry? hash).map f
  spenders : l'.spenders = l.spenders
  nextOrder : l'.nextOrder = l.nextOrder
  settings : l'.settings = l.settings

theorem Agree.refl (f : Entry → β) (l : Ledger) : Agree f l l := ⟨fun _ => rfl, rfl, rfl, rfl⟩

/-- Agreement is transitive, so that a run of operations can be taken one at a time. -/
theorem Agree.trans (h : Agree f l l') (h' : Agree f l' l'') : Agree f l l'' :=
  ⟨fun hash => (h'.entries hash).trans (h.entries hash), h'.spenders.trans h.spenders,
    h'.nextOrder.trans h.nextOrder, h'.settings.trans h.settings⟩

/-- An entry of one ledger has its like in the other. -/
theorem Agree.entry (h : Agree f l l') {hash : Hash256} {e' : Entry}
    (he : l'.entry? hash = some e') : ∃ e, l.entry? hash = some e ∧ f e' = f e := by
  have hm := h.entries hash
  rw [he] at hm
  obtain ⟨e, he, hf⟩ := Option.map_eq_some_iff.1 hm.symm
  exact ⟨e, he, hf.symm⟩

theorem Agree.symm (h : Agree f l l') : Agree f l' l :=
  ⟨fun hash => (h.entries hash).symm, h.spenders.symm, h.nextOrder.symm, h.settings.symm⟩

/-- A change of the entries that `f` does not see, all else unchanged. -/
theorem agree_of_entries {entries : SortedMap Hash256 Entry}
    (h : ∀ hash, (entries.get? hash).map f = (l.entry? hash).map f) :
    Agree f l { l with entries } :=
  ⟨h, rfl, rfl, rfl⟩

/-- Mapping the entries is not noticed if it is not for any entry. -/
theorem agree_mapEntries {g : Entry → Entry} (hg : ∀ e, f (g e) = f e) :
    Agree f l (l.mapEntries g) := by
  refine agree_of_entries fun hash => ?_
  have := entry?_mapEntries l g hash
  unfold entry? mapEntries at this
  rw [this, Option.map_map]
  exact congrFun (congrArg Option.map (funext hg)) _

/-- Nor is modifying one of them. -/
theorem agree_modifyEntry {g : Entry → Entry} {hash : Hash256} (hg : ∀ e, f (g e) = f e) :
    Agree f l (l.modifyEntry hash g) := by
  refine agree_of_entries fun hash' => ?_
  have := entry?_modifyEntry l hash hash' g
  unfold entry? modifyEntry at this
  rw [this]
  split
  · rw [Option.map_map]
    exact congrFun (congrArg Option.map (funext hg)) _
  · rfl

/-- A sequence of changes that `f` does not see is one. -/
theorem agree_foldl {α : Type} {step : Ledger → α → Ledger} (h : ∀ l a, Agree f l (step l a)) :
    ∀ (items : List α) (l : Ledger), Agree f l (items.foldl step l)
  | [], l => .refl f l
  | a :: rest, l => (h l a).trans (agree_foldl h rest (step l a))

/-! ## Beyond the entries -/

/-- The ledgers differ at most in their entries and in who is listed as a spender. -/
def OnlyEntries (l l' : Ledger) : Prop := ∃ entries spenders, l' = { l with entries, spenders }

theorem OnlyEntries.refl (l : Ledger) : OnlyEntries l l := ⟨l.entries, l.spenders, rfl⟩

/-- Changes to the entries add up to changes to the entries. -/
theorem OnlyEntries.trans (h : OnlyEntries l l') (h' : OnlyEntries l' l'') : OnlyEntries l l'' := by
  obtain ⟨_, _, rfl⟩ := h
  obtain ⟨entries, spenders, rfl⟩ := h'
  exact ⟨entries, spenders, rfl⟩

/-- A modification changes nothing but the entries. -/
theorem onlyEntries_modifyEntry (l : Ledger) (hash : Hash256) (g : Entry → Entry) :
    OnlyEntries l (l.modifyEntry hash g) := ⟨_, l.spenders, rfl⟩

/-- A fold of such changes is one. -/
theorem onlyEntries_foldl {α : Type} {step : Ledger → α → Ledger}
    (h : ∀ l a, OnlyEntries l (step l a)) :
    ∀ (items : List α) (l : Ledger), OnlyEntries l (items.foldl step l)
  | [], l => .refl l
  | a :: rest, l => (h l a).trans (onlyEntries_foldl h rest (step l a))

/-- Forgetting memoized amounts changes nothing but the entries. -/
theorem onlyEntries_markAffectedDirty (l : Ledger) (r : Record) :
    OnlyEntries l (l.markAffectedDirty r) :=
  onlyEntries_foldl (fun l hash => onlyEntries_modifyEntry l hash _) _ _

/-- Registering for one key changes the entries, by aligning their bookkeeping, and the spenders. -/
theorem onlyEntries_registerSpend (hash : Hash256) (l : Ledger) (key : SpendKey) :
    OnlyEntries l (registerSpend hash l key) := by
  have aligned : ∀ (l : Ledger) owners, OnlyEntries l (l.alignInfo owners) := by
    intro l owners
    unfold alignInfo
    split
    · exact .refl l
    · exact onlyEntries_foldl (fun l owner => onlyEntries_modifyEntry l owner _) _ _
  unfold registerSpend
  dsimp only
  generalize (if (l.spendersOf key).contains hash then _ else _ : List Hash256) = owners
  have listed : OnlyEntries l { l with spenders := l.spenders.insert key owners } :=
    ⟨l.entries, _, rfl⟩
  split
  · refine (listed.trans (aligned _ owners)).trans ?_
    exact onlyEntries_foldl (fun l owner => onlyEntries_modifyEntry l owner _) _ _
  · exact listed

/-- So does registering for all keys of an entry. -/
theorem onlyEntries_registerSpends (l : Ledger) (hash : Hash256) :
    OnlyEntries l (l.registerSpends hash) := by
  unfold registerSpends
  split
  · exact .refl l
  · exact onlyEntries_foldl (onlyEntries_registerSpend hash) _ _

/-! ## Memoized amounts -/

/-- What does not depend on memoized amounts does not notice that they are forgotten. -/
theorem agree_markDirty (hf : IgnoresMemo f) : Agree f l l.markDirty :=
  agree_mapEntries fun e => hf e _

/-- Nor that those of the entries a record spends from are. -/
theorem agree_markAffectedDirty (hf : IgnoresMemo f) (r : Record) :
    Agree f l (l.markAffectedDirty r) :=
  agree_foldl (fun _ _ => agree_modifyEntry fun e => hf e _) _ _

/-! ## Bookkeeping -/

/-- What does not depend on the bookkeeping of conflicting entries does not notice that it is
aligned. -/
theorem agree_alignInfo (hf : ∀ (e : Entry) (i : EntryInfo),
    f { e with info := e.info.alignedWith i } = f e) (owners : List Hash256) :
    Agree f l (l.alignInfo owners) := by
  unfold alignInfo
  split
  · exact .refl f l
  · exact agree_foldl (fun _ _ => agree_modifyEntry fun e => hf e _) _ _

/-! ## Notes -/

/-- What does not depend on the data of notes does not notice that these are mapped. -/
theorem agree_mapNotes (hf : IgnoresNoteData f) (g : NoteData → NoteData) :
    Agree f l (l.mapNotes g) :=
  agree_mapEntries fun e => hf e _ (SortedMap.keys_mapValues _ _)

/-- Nor that the data of one note is changed. -/
theorem agree_modifyNote (hf : IgnoresNoteData f) (location : NoteLocation)
    (g : NoteData → NoteData) : Agree f l (l.modifyNote location g) :=
  agree_modifyEntry fun e => hf e _ (SortedMap.keys_mapValues _ _)

/-- Nor that they are mapped in order, with a state. -/
theorem agree_mapNotesAccum {σ : Type} (hf : IgnoresNoteData f)
    (g : σ → NoteData → NoteData × σ) (s : σ) : Agree f l (l.mapNotesAccum g s).1 :=
  agree_of_entries fun hash => SortedMap.map_get?_mapAccum
    (fun _ _ _ => hf _ _ (SortedMap.keys_mapAccum _ _ _)) l.entries s hash

/-- Indexing the notes of an entry leaves all entries alone. -/
theorem agree_indexEntry (hash : Hash256) : Agree f l (l.indexEntry hash) := by
  unfold indexEntry
  split <;> exact ⟨fun _ => rfl, rfl, rfl, rfl⟩

/-- Deriving nullifiers changes nothing but the data of notes. -/
theorem agree_deriveNullifiers (hf : IgnoresNoteData f) (keys : KeyView) :
    Agree f l (l.deriveNullifiers keys) := by
  refine .trans (agree_mapEntries fun e => ?_)
    (agree_foldl (fun l (e : Entry) =>
      (⟨fun _ => rfl, rfl, rfl, rfl⟩ : Agree f l (l.indexNotes e.notes))) _ _)
  split
  · exact hf e _ (SortedMap.keys_mapValues _ _)
  · rfl

/-- So does forgetting the witnesses. -/
theorem agree_clearWitnesses (hf : IgnoresNoteData f) : Agree f l l.clearWitnesses :=
  .trans (agree_mapEntries fun e => hf e _ (SortedMap.keys_mapValues _ _) :
      Agree f l (l.mapEntries Entry.clearWitnesses))
    ⟨fun _ => rfl, rfl, rfl, rfl⟩

/-! ## Chain updates -/

/-- Opening the witnesses for a block does, too. -/
theorem agree_openWitnesses (hf : IgnoresNoteData f) (height : Int) :
    Agree f l (l.openWitnesses height) :=
  .trans (agree_mapNotes hf _) ⟨fun _ => rfl, rfl, rfl, rfl⟩

/-- So does taking a leaf into the witnesses of all notes, as far as they have room. -/
theorem agree_appendToNotes (hf : IgnoresNoteData f) (height : Int) (leaf : Hash256) :
    Agree f l (l.appendToNotes height leaf).1 :=
  agree_mapNotesAccum hf _ _

/-- So does dropping the newest witnesses. -/
theorem agree_dropWitnesses (hf : IgnoresNoteData f) (height : Int) :
    Agree f l (l.dropWitnesses height) :=
  .trans (agree_mapNotes hf _) ⟨fun _ => rfl, rfl, rfl, rfl⟩

/-- So does taking a leaf of a block, whether it succeeds or not. -/
theorem keeps_agree_appendBlockLeaf (hf : IgnoresNoteData f) (l : Ledger) (height : Int)
    (leaf : NoteLocation × Hash256) :
    Keeps (fun s => Agree f l s.ledger) (appendBlockLeaf height leaf) :=
  keeps_appendBlockLeaf (fun _ hs => hs.trans (agree_appendToNotes hf height leaf.2))
    fun _ _ hs => hs.trans (agree_modifyNote hf _ _)

/-- A chain update changes nothing about the entries but their notes. -/
theorem keeps_agree_chainTip (hf : IgnoresNoteData f) (l : Ledger) (index : BlockIndex)
    (block : Block) (added : Bool) :
    Keeps (fun s => Agree f l s.ledger) (chainTip index block added) :=
  keeps_chainTip (fun _ hs => hs.trans (agree_openWitnesses hf _))
    (fun _ leaf hs => hs.trans (agree_appendToNotes hf _ leaf))
    (fun _ _ _ hs => hs.trans (agree_modifyNote hf _ _))
    (fun _ hs => hs.trans (agree_mapNotes hf _))
    fun _ hs => hs.trans (agree_dropWitnesses hf _)

/-! ## Persistence and rebroadcast -/

/-- Storing the ledger leaves its entries alone. -/
theorem agree_setBestChain (locator : BlockLocator) : Agree f l (setBestChain locator l).2 := by
  unfold setBestChain
  dsimp only
  split <;> exact ⟨fun _ => rfl, rfl, rfl, rfl⟩

/-- Planning the next rebroadcast does, too. -/
theorem agree_planResend (now bestBlockTime delay : Int64) :
    Agree f l (l.planResend now bestBlockTime delay).2 := by
  unfold planResend
  split
  · exact .refl f l
  dsimp only
  split <;> exact ⟨fun _ => rfl, rfl, rfl, rfl⟩

end Ledger
end ShieldedLedger
