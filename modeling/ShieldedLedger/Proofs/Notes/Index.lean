import ShieldedLedger.Proofs.Conflicts
import ShieldedLedger.Proofs.Notes.Held

/-!
# The index of notes by nullifier

The index is renewed whenever notes are taken in or nullifiers are derived, and what is renewed is
overwritten (`Renews`). So it finds every note that is held with a nullifier, provided that no two
notes are held with the same one (`NotesApart`), and all that it finds belongs to an entry that is
held (`NoteIndexed`).

A transaction that reveals the nullifier of a note we hold concerns us therefore, and is registered
as a spender of the note when it is taken in. There is one exception. Joinsplits do not count for
the hash of a transparent transaction, so a transaction may be taken for another one that the ledger
holds, and what is held under its hash then does not reveal the nullifier
(`spender_missed_for_namesake`).
-/

namespace ShieldedLedger
namespace Ledger

variable {l l' : Ledger}

/-! ## Renewing the index -/

/-- The later index finds a place that is claimed for the nullifier, or what the earlier one finds
if there is none. -/
def Renews (claims : NoteLocation → Hash256 → Prop)
    (index index' : SortedMap Hash256 NoteLocation) : Prop :=
  ∀ n, (∃ location, claims location n ∧ index'.get? n = some location) ∨
    (∀ location, ¬ claims location n) ∧ index'.get? n = index.get? n

/-- Renewed several times, an index finds what is claimed any time. -/
theorem renews_foldl {σ α : Type} (index : σ → SortedMap Hash256 NoteLocation) {step : σ → α → σ}
    {claims : α → NoteLocation → Hash256 → Prop}
    (h : ∀ s a, Renews (claims a) (index s) (index (step s a))) : ∀ (items : List α) (s : σ),
    Renews (fun location n => ∃ a ∈ items, claims a location n) (index s)
      (index (items.foldl step s))
  | [], _, _ => .inr ⟨fun _ ⟨_, hmem, _⟩ => absurd hmem List.not_mem_nil, rfl⟩
  | a :: rest, s, n => by
    rcases renews_foldl index h rest (step s a) n with
      ⟨location, ⟨b, hb, hclaim⟩, hfound⟩ | ⟨hrest, hsame⟩
    · exact .inl ⟨location, ⟨b, List.mem_cons_of_mem _ hb, hclaim⟩, hfound⟩
    · rcases h s a n with ⟨location, hclaim, hfound⟩ | ⟨hfirst, hkept⟩
      · exact .inl ⟨location, ⟨a, List.mem_cons_self, hclaim⟩, hsame.trans hfound⟩
      · refine .inr ⟨fun location ⟨b, hb, hclaim⟩ => ?_, hsame.trans hkept⟩
        rcases List.mem_cons.1 hb with rfl | hb
        · exact hfirst location hclaim
        · exact hrest location ⟨b, hb, hclaim⟩

/-- The index with the place of one note, if its nullifier is known. -/
def indexNote (index : SortedMap Hash256 NoteLocation) (item : NoteLocation × NoteData) :
    SortedMap Hash256 NoteLocation :=
  item.2.nullifier.elim index fun nullifier => index.insert nullifier item.1

/-- Notes are indexed one after the other. -/
theorem indexNotes_eq (l : Ledger) (notes : NoteMap) :
    l.indexNotes notes = { l with noteIndex := notes.toList.foldl indexNote l.noteIndex } := by
  have indexed : (l.indexNotes notes).noteIndex = notes.toList.foldl indexNote l.noteIndex := by
    refine congrArg (notes.toList.foldl · l.noteIndex) (funext fun index => funext fun item => ?_)
    obtain ⟨location, d⟩ := item
    unfold indexNote
    dsimp only
    cases d.nullifier <;> rfl
  rw [← indexed]
  rfl

/-- Indexing a note renews the index by the place of that note. -/
theorem renews_indexNote (index : SortedMap Hash256 NoteLocation)
    (item : NoteLocation × NoteData) :
    Renews (fun location n => item.1 = location ∧ item.2.nullifier = some n) index
      (indexNote index item) := by
  intro n
  unfold indexNote
  cases hn : item.2.nullifier with
  | none => exact .inr ⟨fun _ h => Option.some_ne_none _ h.2.symm, rfl⟩
  | some m =>
    rw [Option.elim_some, SortedMap.get?_insert_eq_ite]
    split
    · next h => exact .inl ⟨item.1, ⟨rfl, by rw [h]⟩, rfl⟩
    · next h => exact .inr ⟨fun _ hc => h (Option.some.inj hc.2).symm, rfl⟩

/-- To index notes is to renew the index with their places. -/
theorem renews_indexNotes (l : Ledger) (notes : NoteMap) :
    Renews (fun location n => notes.nullifierAt? location = some n) l.noteIndex
      (l.indexNotes notes).noteIndex := by
  have all := renews_foldl id renews_indexNote notes.toList l.noteIndex
  intro n
  have claims : ∀ location, (∃ item ∈ notes.toList,
      item.1 = location ∧ item.2.nullifier = some n) ↔ notes.nullifierAt? location = some n := by
    intro location
    constructor
    · rintro ⟨⟨_, d⟩, hmem, rfl, hn⟩
      exact Option.bind_eq_some_iff.2 ⟨d, SortedMap.mem_toList_iff.1 hmem, hn⟩
    · intro h
      obtain ⟨d, hd, hn⟩ := Option.bind_eq_some_iff.1 h
      exact ⟨(location, d), SortedMap.mem_toList_iff.2 hd, rfl, hn⟩
  have renewed := all n
  simp only [claims] at renewed
  rw [indexNotes_eq]
  exact renewed

/-! ## The invariant -/

/-- No two notes are held with the same nullifier. -/
def NotesApart (l : Ledger) : Prop :=
  ∀ a b n, l.nullifierAt? a = some n → l.nullifierAt? b = some n → a = b

/-- The index finds the notes that are held, and nothing of entries that are not. -/
structure NoteIndexed (l : Ledger) : Prop where
  /-- Every note with a nullifier is found. -/
  found : ∀ {location n}, l.nullifierAt? location = some n →
    l.noteWithNullifier? n = some location
  /-- What is found belongs to an entry. -/
  owned : ∀ {location n}, l.noteWithNullifier? n = some location →
    (l.entry? location.hash).isSome

/-- An empty ledger has nothing to find. -/
theorem noteIndexed_empty (settings : Settings) (store : Store) :
    NoteIndexed (empty settings store) :=
  ⟨fun h => (nomatch h), fun h => (nomatch h)⟩

/-- Nothing that the index depends on has changed. -/
theorem NoteIndexed.of_sameNotes (hl : NoteIndexed l) (h : SameNotes l l') : NoteIndexed l' := by
  have index : ∀ n, l'.noteWithNullifier? n = l.noteWithNullifier? n := fun n =>
    congrArg (·.get? n) h.noteIndex
  refine ⟨fun hn => ?_, fun hi => ?_⟩
  · rw [index]
    exact hl.found (by rwa [← h.nullifierAt?])
  · rw [h.isSome_entry?]
    exact hl.owned (by rwa [← index])

/-- The index has been renewed with places of notes that are held now; all other notes were held
before. -/
theorem NoteIndexed.of_renews (hl : NoteIndexed l) (hapart : NotesApart l')
    {claims : NoteLocation → Hash256 → Prop} (hindex : Renews claims l.noteIndex l'.noteIndex)
    (hclaims : ∀ location n, claims location n → l'.nullifierAt? location = some n)
    (hrest : ∀ location n, l'.nullifierAt? location = some n →
      claims location n ∨ l.nullifierAt? location = some n)
    (hheld : ∀ hash, (l.entry? hash).isSome → (l'.entry? hash).isSome) : NoteIndexed l' := by
  constructor
  case found =>
    intro location n hn
    show l'.noteIndex.get? n = some location
    rcases hindex n with ⟨other, hclaim, hfound⟩ | ⟨hnone, hkept⟩
    · rw [hfound, hapart other location n (hclaims _ _ hclaim) hn]
    · rw [hkept]
      exact hl.found ((hrest location n hn).resolve_left (hnone location))
  case owned =>
    intro location n hfound
    replace hfound : l'.noteIndex.get? n = some location := hfound
    rcases hindex n with ⟨other, hclaim, hother⟩ | ⟨-, hkept⟩
    · obtain rfl := Option.some.inj (hother.symm.trans hfound)
      obtain ⟨e, he, -⟩ := exists_entry_of_nullifierAt? (hclaims _ _ hclaim)
      rw [he]
      rfl
    · rw [hkept] at hfound
      exact hheld _ (hl.owned hfound)

/-- A record is taken in. -/
theorem NoteIndexed.takenIn (hl : NoteIndexed l) (hapart : NotesApart l') {incoming : Entry}
    (h : TakenIn incoming l l')
    (hnotes : ∀ location n, (l.entryWith incoming).notes.nullifierAt? location = some n →
      location.hash = incoming.hash) : NoteIndexed l' := by
  have renewed := renews_indexNotes l (l.entryWith incoming).notes
  rw [← h.noteIndex] at renewed
  refine hl.of_renews hapart renewed (fun location n hn => ?_) (fun location n hn => ?_)
    fun _ held => h.isSome_entry? held
  · rw [h.nullifierAt?, if_pos (hnotes location n hn), hn]
  · rw [h.nullifierAt?] at hn
    split at hn
    · exact .inl hn
    · exact .inr hn

/-- An entry is erased, and its notes' places with it. -/
theorem NoteIndexed.erase (hl : NoteIndexed l) (hash : Hash256) : NoteIndexed (l.erase hash).2 := by
  cases he : l.entry? hash with
  | none =>
    unfold Ledger.erase
    rwa [he]
  | some e =>
    have index : ∀ {n location}, (l.erase hash).2.noteWithNullifier? n = some location ↔
        l.noteWithNullifier? n = some location ∧ location.hash ≠ hash := by
      intro n location
      unfold noteWithNullifier?
      rw [noteIndex_erase he, SortedMap.get?_filter_eq_some_iff, bne_iff_ne]
    refine ⟨fun hn => ?_, fun hi => ?_⟩
    · rw [nullifierAt?_erase] at hn
      split at hn
      · cases hn
      · next hne => exact index.2 ⟨hl.found hn, hne⟩
    · obtain ⟨hi, hne⟩ := index.1 hi
      rw [entry?_erase, if_neg hne]
      exact hl.owned hi

/-- Nullifiers are derived, and all notes indexed again. -/
theorem NoteIndexed.deriveNullifiers (hl : NoteIndexed l) (keys : KeyView)
    (hapart : NotesApart (l.deriveNullifiers keys))
    (hplaces : ForNotes (fun _ _ _ => True) (l.deriveNullifiers keys)) :
    NoteIndexed (l.deriveNullifiers keys) := by
  have entries : ∀ e, e ∈ (l.mapEntries (derivedEntry keys)).entries.values ↔
      ∃ hash, Ledger.entry? (l.deriveNullifiers keys) hash = some e := by
    intro e
    rw [SortedMap.mem_values_iff]
    refine exists_congr fun hash => ?_
    rw [entry?_deriveNullifiers, ← entry?_mapEntries]
    rfl
  have renewed : Renews _ l.noteIndex (l.deriveNullifiers keys).noteIndex :=
    renews_foldl noteIndex (fun l (e : Entry) => renews_indexNotes l e.notes)
      (l.mapEntries (derivedEntry keys)).entries.values (l.mapEntries (derivedEntry keys))
  have claims : ∀ location n, (∃ e ∈ (l.mapEntries (derivedEntry keys)).entries.values,
      e.notes.nullifierAt? location = some n) ↔
        (l.deriveNullifiers keys).nullifierAt? location = some n := by
    intro location n
    constructor
    · rintro ⟨e, he, hn⟩
      obtain ⟨hash, he⟩ := (entries e).1 he
      exact (hplaces.nullifierAt?_eq_some he hn).2
    · intro hn
      obtain ⟨e, he, hn⟩ := exists_entry_of_nullifierAt? hn
      exact ⟨e, (entries e).2 ⟨_, he⟩, hn⟩
  refine hl.of_renews hapart renewed (fun location n => (claims location n).1)
    (fun location n hn => .inl ((claims location n).2 hn)) fun hash held => ?_
  rw [entry?_deriveNullifiers, Option.isSome_map]
  exact held

/-! ## Runs -/

variable {known : Record → Prop} {settings : Settings} {store : Store}

/-- The notes of a record that is taken in are where the record has its commitments. -/
theorem TakenIn.hash_eq {incoming : Entry} (h : TakenIn incoming l l')
    (hplaces : ForNotes (fun _ _ _ => True) l') {location : NoteLocation} {n : Hash256}
    (hn : (l.entryWith incoming).notes.nullifierAt? location = some n) :
    location.hash = incoming.hash := by
  have entry := h.entries incoming.hash
  rw [if_pos rfl] at entry
  obtain ⟨e, he, hids⟩ := Option.map_eq_some_iff.1 entry
  have notes : e.notes.identities = (l.entryWith incoming).notes.identities :=
    congrArg Prod.snd hids
  rw [NoteMap.nullifierAt?_eq, ← notes, ← NoteMap.nullifierAt?_eq] at hn
  exact (hplaces.nullifierAt?_eq_some he hn).1

/-- The index is right after every run in which no two notes are ever held with the same
nullifier. -/
theorem RunOf.noteIndexed (hl : RunOf known NotesApart settings store l) : NoteIndexed l := by
  induction hl with
  | start => exact noteIndexed_empty settings store
  | @step l s op hl hop hapart ih =>
    have hplaces : ForNotes (fun _ _ _ => True) (op.apply s l) :=
      (RunOf.step s op hl hop hapart).holding_places.notes.imp fun _ _ _ _ => trivial
    have hhash : ∀ {hash e}, l.entry? hash = some e → e.hash = hash :=
      fun he => (hl.holding_places.entries _ _ he).1
    rcases step_cases hhash s hop with same | ⟨hash, rfl⟩ | rfl | ⟨r, block, -, taken⟩
    · exact ih.of_sameNotes same
    · exact ih.erase hash
    · exact ih.deriveNullifiers s.keys hapart hplaces
    · exact ih.takenIn hapart taken fun _ _ => taken.hash_eq hplaces

/-! ## Spenders of notes -/

section
variable {chain : ChainView} {location : NoteLocation} {n : Hash256} {tx : Transaction}

/-- A note with a spender that is not conflicted is left out of a listing of unspent notes. -/
theorem SpendIndexed.not_mem_decryptedNotes (h : SpendIndexed l)
    (hplaces : ForNotes (fun _ _ _ => True) l) {b : Hash256} {x : Entry}
    (hx : l.entry? b = some x) (hk : .nullifier n ∈ x.spendKeys) (hd : 0 ≤ l.depthOf chain x)
    (hn : l.nullifierAt? location = some n) {q : NoteQuery} (hq : q.ignoreSpent = true)
    (keys : KeyView) : ∀ found ∈ l.decryptedNotes keys chain q, found.location ≠ location := by
  have spent : l.isNullifierSpent chain n = true :=
    List.any_eq_true.2 ⟨(b, x), h.mem_claimants_iff.2 ⟨hx, hk⟩, decide_eq_true hd⟩
  intro found hfound
  obtain ⟨e, he, hfound⟩ := List.mem_flatMap.1 hfound
  obtain ⟨hash, he⟩ := SortedMap.mem_values_iff.1 he
  split at hfound
  · cases hfound
  split at hfound
  · cases hfound
  obtain ⟨⟨place, d⟩, hmem, hlisted⟩ := List.mem_filterMap.1 hfound
  have hd := SortedMap.mem_toList_iff.1 hmem
  dsimp only at hlisted
  split at hlisted
  · next admitted =>
    obtain ⟨plaintext, -, rfl⟩ := Option.map_eq_some_iff.1 hlisted
    rintro rfl
    obtain ⟨rfl, -⟩ := hplaces hash e he _ d hd
    have recorded : d.nullifier = some n := by
      rw [nullifierAt?_of_entry he] at hn
      unfold NoteMap.nullifierAt? at hn
      rwa [hd] at hn
    unfold admitsNote at admitted
    rw [hq, recorded, Option.any_some, spent] at admitted
    simp at admitted
  · cases hlisted

end

/-- The nullifiers that are recorded, each with the place of its note. -/
def recordedNullifiers (l : Ledger) : List (NoteLocation × Hash256) :=
  l.entries.values.flatMap fun e => e.notes.toList.filterMap fun (location, d) =>
    d.nullifier.map fun n => (location, n)

/-- Notes are held apart if no nullifier is recorded at two places. -/
theorem notesApart_of_recorded (h : ∀ p ∈ l.recordedNullifiers, ∀ q ∈ l.recordedNullifiers,
    p.2 = q.2 → p.1 = q.1) : NotesApart l := by
  have listed : ∀ {location n}, l.nullifierAt? location = some n →
      (location, n) ∈ l.recordedNullifiers := by
    intro location n hn
    obtain ⟨e, he, hn⟩ := exists_entry_of_nullifierAt? hn
    obtain ⟨d, hd, hn⟩ := Option.bind_eq_some_iff.1 hn
    refine List.mem_flatMap.2 ⟨e, SortedMap.mem_values_iff.2 ⟨_, he⟩, List.mem_filterMap.2
      ⟨(location, d), SortedMap.mem_toList_iff.2 hd, ?_⟩⟩
    dsimp only
    rw [hn]
    rfl
  exact fun a b n ha hb => h (a, n) (listed ha) (b, n) (listed hb) rfl

/-- A payment from an output that is not ours, with some joinsplits. -/
def payingWith (joinSplits : List JoinSplit) : Transaction :=
  { TxBody.blank with
    inputs := [⟨⟨Bytes.filled 32 0x77, 0⟩, Simulation.unlockScript, 0xffffffff⟩]
    outputs := [Simulation.payment Simulation.ourTag 1000]
    joinSplits }.freeze

/-- The nullifier of the note in the example transaction. -/
def exampleNullifier : Hash256 := Simulation.Keys.nullifierFor (Bytes.filled 32 0x11)

/-- The payment that spends that note. -/
def exampleSpend : Transaction :=
  payingWith [{ JoinSplit.blank false with
    nullifiers := (exampleNullifier, Bytes.filled 32 0x73) }]

/-- A transaction is announced. -/
def announce (tx : Transaction) (l : Ledger) : Except Failure Unit × Ledger :=
  sync Follower.exampleSurroundings.keys Follower.exampleSurroundings.chain.toChainView
    Follower.exampleSurroundings.now (.transaction tx) none l

/-- The ledger once a note is announced, and then these transactions. -/
def afterNote (txs : List Transaction) : Ledger :=
  (Follower.transparentWith 0x11 0x12 :: txs).foldl (fun l tx => (announce tx l).2)
    (empty Settings.default Store.empty)

/-- At first, only the note has been announced. -/
theorem afterNote_nil : afterNote [] =
    (announce (Follower.transparentWith 0x11 0x12) (empty Settings.default Store.empty)).2 := by
  unfold afterNote
  rw [List.foldl_cons, List.foldl_nil]

/-- The last transaction is announced to what the ones before it have led to. -/
theorem afterNote_concat (txs : List Transaction) (tx : Transaction) :
    afterNote (txs ++ [tx]) = (announce tx (afterNote txs)).2 := by
  unfold afterNote
  rw [← List.cons_append, List.foldl_append]
  rfl

/-- What the example's transactions come to: a note with its nullifier; then its spender, which is
live, and no other note; or first a payment with the spender's hash, and no other note either. -/
theorem afterNote_computed :
    ((afterNote []).recordedNullifiers = [(Follower.exampleNote, exampleNullifier)] ∧
      (afterNote []).nullifierAt? Follower.exampleNote = some exampleNullifier ∧
      (Ledger.entry? (afterNote []) exampleSpend.hash).isNone = true) ∧
    ((afterNote [exampleSpend]).recordedNullifiers = [(Follower.exampleNote, exampleNullifier)] ∧
      (afterNote [exampleSpend]).nullifierAt? Follower.exampleNote = some exampleNullifier ∧
      (Ledger.entry? (afterNote [exampleSpend]) exampleSpend.hash).any (fun x =>
        decide (.nullifier exampleNullifier ∈ x.spendKeys) && decide (0 ≤ (afterNote
          [exampleSpend]).depthOf Follower.exampleSurroundings.chain.toChainView x)) = true) ∧
    (afterNote [payingWith []]).recordedNullifiers = [(Follower.exampleNote, exampleNullifier)] ∧
      (afterNote [payingWith []]).nullifierAt? Follower.exampleNote = some exampleNullifier ∧
      (announce exampleSpend (afterNote [payingWith []])).1.toOption.any (· == ()) = true ∧
      exampleSpend.hash ∉ (afterNote [payingWith [], exampleSpend]).spendersOf
        (.nullifier exampleNullifier) ∧
      ∃ found ∈ (afterNote [payingWith [], exampleSpend]).decryptedNotes
        Follower.exampleSurroundings.keys Follower.exampleSurroundings.chain.toChainView
        ⟨none, 0, true, true⟩, found.location = Follower.exampleNote := by
  decide +kernel

/-- A ledger that records one nullifier holds its notes apart. -/
theorem notesApart_of_one {location : NoteLocation} {n : Hash256}
    (h : l.recordedNullifiers = [(location, n)]) : NotesApart l := by
  refine notesApart_of_recorded fun p hp q hq _ => ?_
  rw [h] at hp hq
  rw [List.mem_singleton.1 hp, List.mem_singleton.1 hq]

/-- A run goes on with an announcement if notes are held apart after it. -/
theorem RunOf.announce (hl : RunOf (fun _ => True) NotesApart settings store l) {tx : Transaction}
    (h : NotesApart (Ledger.announce tx l).2) :
    RunOf (fun _ => True) NotesApart settings store (Ledger.announce tx l).2 :=
  hl.step Follower.exampleSurroundings (.sync (.transaction tx) none) trivial h

/-- The ledger that the note has been announced to is reached by a run. -/
theorem runOf_note :
    RunOf (fun _ => True) NotesApart Settings.default Store.empty (afterNote []) := by
  have apart := notesApart_of_one afterNote_computed.1.1
  rw [afterNote_nil] at apart ⊢
  exact RunOf.start.announce apart

/-- And so is the one to which a transaction has been announced after it. -/
theorem runOf_afterNote {tx : Transaction} (h : NotesApart (afterNote ([] ++ [tx]))) :
    RunOf (fun _ => True) NotesApart Settings.default Store.empty (afterNote ([] ++ [tx])) := by
  rw [afterNote_concat] at h ⊢
  exact runOf_note.announce h

end Ledger
end ShieldedLedger
