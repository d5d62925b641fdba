import ShieldedLedger.Proofs.Steps
import ShieldedLedger.Proofs.TakingIn
import ShieldedLedger.Proofs.Witnesses.Follower
import ShieldedLedger.Proofs.Witnesses.Notes

/-!
# Which notes are held

A note is what it is by its place, its address and its nullifier; the witnesses come and go
(`NoteData.identity`). Only four operations change the notes that are held: to take in a record, to
erase an entry and to derive nullifiers. All others leave them and their index alone
(`sameNotes_apply`).

Wherever a note is held, some record that was seen has a commitment there
(`RunOf.holding_places`).
-/

namespace ShieldedLedger

/-- What makes a note the note it is. -/
def NoteData.identity (d : NoteData) : PaymentAddress × Option Hash256 := (d.address, d.nullifier)

/-- What the notes are, by place. -/
def NoteMap.identities (notes : NoteMap) :
    SortedMap NoteLocation (PaymentAddress × Option Hash256) :=
  notes.mapValues fun _ d => d.identity

/-- Among some notes, the nullifier that is recorded for the one at a location. -/
def NoteMap.nullifierAt? (notes : NoteMap) (location : NoteLocation) : Option Hash256 :=
  (notes.get? location).bind (·.nullifier)

/-- The nullifier of a note is part of what the note is. -/
theorem NoteMap.nullifierAt?_eq (notes : NoteMap) (location : NoteLocation) :
    notes.nullifierAt? location = (notes.identities.get? location).bind (·.2) := by
  unfold NoteMap.nullifierAt? NoteMap.identities
  rw [SortedMap.get?_mapValues]
  cases notes.get? location <;> rfl

/-- The record of an entry, and what its notes are. -/
def Entry.identities (e : Entry) :
    Record × SortedMap NoteLocation (PaymentAddress × Option Hash256) :=
  (e.record, e.notes.identities)

/-- A step leaves the notes alone, or erases an entry, derives nullifiers or takes in a record. -/
theorem Operation.IsStep.cases {known : Record → Prop} {op : Operation} (hop : op.IsStep known) :
    op.IsQuiet ∨ (∃ hash, op = .erase hash) ∨ op = .deriveNullifiers ∨
      ∃ r, known r ∧ ((∃ block, op = .sync r block) ∨
        ∃ block update, op = .addIfRelevant (Entry.ofRecord r) block update) := by
  cases op with
  | sync r block => exact .inr (.inr (.inr ⟨r, hop, .inl ⟨block, rfl⟩⟩))
  | addIfRelevant incoming block update =>
    obtain ⟨r, hr, rfl⟩ := hop
    exact .inr (.inr (.inr ⟨r, hr, .inr ⟨block, update, rfl⟩⟩))
  | erase hash => exact .inr (.inl ⟨hash, rfl⟩)
  | deriveNullifiers => exact .inr (.inr (.inl rfl))
  | addEntry | rescan => exact absurd hop id
  | _ => exact .inl trivial

namespace Ledger

variable {l l' l'' : Ledger}

/-! ## The same notes -/

/-- The ledgers hold the same notes of the same records, and find them by the same nullifiers. -/
structure SameNotes (l l' : Ledger) : Prop where
  entries : ∀ hash, (l'.entry? hash).map Entry.identities = (l.entry? hash).map Entry.identities
  noteIndex : l'.noteIndex = l.noteIndex

theorem SameNotes.refl (l : Ledger) : SameNotes l l := ⟨fun _ => rfl, rfl⟩

theorem SameNotes.of_eq (h : l' = l) : SameNotes l l' := h ▸ .refl l

theorem SameNotes.trans (h : SameNotes l l') (h' : SameNotes l' l'') : SameNotes l l'' :=
  ⟨fun hash => (h'.entries hash).trans (h.entries hash), h'.noteIndex.trans h.noteIndex⟩

/-- The notes are the same if the entries agree in theirs, and the index is the same. -/
theorem SameNotes.of_entries
    (h : ∀ hash, (l'.entry? hash).map witnessedPart = (l.entry? hash).map witnessedPart)
    (hi : l'.noteIndex = l.noteIndex) : SameNotes l l' := by
  refine ⟨fun hash => ?_, hi⟩
  have part : Entry.identities =
      (fun p : Record × NoteMap => (p.1, p.2.identities)) ∘ witnessedPart := rfl
  rw [part, ← Option.map_map, ← Option.map_map, h]

/-- Ledgers that differ only in their entries find notes by the same nullifiers. -/
theorem OnlyEntries.noteIndex (h : OnlyEntries l l') : l'.noteIndex = l.noteIndex := by
  obtain ⟨_, _, rfl⟩ := h
  rfl

/-- Registering spends changes no notes. -/
theorem sameNotes_registerSpends (l : Ledger) (hash : Hash256) :
    SameNotes l (l.registerSpends hash) :=
  .of_entries (witnessedPart_registerSpends l hash) (onlyEntries_registerSpends l hash).noteIndex

/-- Forgetting the memos that a record affects changes no notes. -/
theorem sameNotes_markAffectedDirty (l : Ledger) (r : Record) :
    SameNotes l (l.markAffectedDirty r) :=
  .of_entries (agree_markAffectedDirty (fun _ _ => rfl) r).entries
    (onlyEntries_markAffectedDirty l r).noteIndex

/-- A change of the notes that leaves each the note it is. -/
theorem sameNotes_mapNotes {g : NoteData → NoteData} (hg : ∀ d, (g d).identity = d.identity) :
    SameNotes l (l.mapNotes g) := by
  have same : Agree Entry.identities l (l.mapNotes g) := agree_mapEntries fun e => by
    unfold Entry.identities NoteMap.identities
    rw [SortedMap.mapValues_mapValues]
    simp only [hg]
  exact ⟨same.entries, rfl⟩

/-- A change of a note that leaves alone what it is changes no notes. -/
theorem sameNotes_modifyNote {location : NoteLocation} {g : NoteData → NoteData}
    (hg : ∀ d, (g d).identity = d.identity) : SameNotes l (l.modifyNote location g) := by
  have same : Agree Entry.identities l (l.modifyNote location g) := agree_modifyEntry fun e =>
    Prod.ext rfl (e.notes.mapValues_modify_of_eq location hg)
  exact ⟨same.entries, rfl⟩

/-- A walk over the notes that leaves alone what they are changes no notes. -/
theorem sameNotes_mapNotesAccum {σ : Type} {g : σ → NoteData → NoteData × σ}
    (hg : ∀ s d, (g s d).1.identity = d.identity) (s : σ) :
    SameNotes l (l.mapNotesAccum g s).1 := by
  have same : Agree Entry.identities l (l.mapNotesAccum g s).1 :=
    agree_of_entries fun hash => SortedMap.map_get?_mapAccum (fun s _ e =>
      Prod.ext rfl (e.notes.mapValues_mapAccum_of_eq (fun s _ d => hg s d) s)) l.entries s hash
  exact ⟨same.entries, rfl⟩

/-! ## Operations that leave the notes alone -/

/-- Opening a witness does not change what a note is. -/
theorem identity_openWitness (limit : Nat) (d : NoteData) :
    (d.openWitness limit).identity = d.identity := by
  unfold NoteData.openWitness
  split <;> rfl

/-- Appending a leaf does not change what a note is. -/
theorem identity_appendLeaf? {leaf : Hash256} {d d' : NoteData} (h : d.appendLeaf? leaf = some d') :
    d'.identity = d.identity := by
  unfold NoteData.appendLeaf? at h
  split at h
  · rw [Option.some.inj h]
  · obtain ⟨_, -, rfl⟩ := Option.map_eq_some_iff.1 h
    rfl

/-- A chain update is about witnesses. -/
theorem keeps_sameNotes_chainTip (l : Ledger) (index : BlockIndex) (block : Block) (added : Bool) :
    Keeps (fun s => SameNotes l s.ledger) (chainTip index block added) := by
  refine keeps_chainTip (fun l' hl => ?_) (fun l' leaf hl => ?_) (fun l' location w hl => ?_)
    (fun l' hl => ?_) (fun l' hl => ?_)
  · have opened : SameNotes l' (l'.mapNotes fun d =>
        if d.isBehind index.height then d.openWitness l'.settings.witnessLimit else d) :=
      sameNotes_mapNotes fun d => by
        split
        · exact identity_openWitness _ d
        · rfl
    exact hl.trans ⟨opened.entries, opened.noteIndex⟩
  · refine hl.trans (sameNotes_mapNotesAccum (fun ok d => ?_) true)
    split
    · split
      · next h => exact identity_appendLeaf? h
      · rfl
    · rfl
  · exact hl.trans (sameNotes_modifyNote fun _ => rfl)
  · exact hl.trans (sameNotes_mapNotes fun d => by split <;> rfl)
  · have dropped : SameNotes l' (l'.mapNotes fun d =>
        if d.isBehind (index.height + 1) then d.dropWitness index.height else d) :=
      sameNotes_mapNotes fun d => by split <;> rfl
    exact hl.trans ⟨dropped.entries, dropped.noteIndex⟩

/-- Forgetting all witnesses changes no notes. -/
theorem sameNotes_clearWitnesses (l : Ledger) : SameNotes l l.clearWitnesses := by
  have cleared : SameNotes l (l.mapNotes NoteData.clearWitnesses) :=
    sameNotes_mapNotes fun _ => rfl
  exact ⟨cleared.entries, cleared.noteIndex⟩

/-- A query changes nothing but the entries. -/
theorem keeps_onlyEntries_query (l : Ledger) (keys : KeyView) (chain : ChainView)
    (q : AmountQuery) : Keeps (OnlyEntries l) (q.ask keys chain) := by
  refine keeps_query (fun kind hash filter l' hl => ?_) (fun hash l' hl => ?_) q
  · unfold amount
    split
    · exact hl
    split
    · exact hl
    split <;> exact hl.trans (onlyEntries_modifyEntry _ _ _)
  · unfold change
    split
    · exact hl
    split
    · exact hl
    split
    · exact hl
    · exact hl.trans (onlyEntries_modifyEntry _ _ _)

/-- All but taking in a record, erasing an entry and deriving nullifiers leaves the notes alone. -/
theorem sameNotes_apply (s : Surroundings) {op : Operation} (hop : op.IsQuiet) (l : Ledger) :
    SameNotes l (op.apply s l) := by
  cases op with
  | registerSpends hash => exact sameNotes_registerSpends l hash
  | chainTip index block tree added =>
    exact keeps_tipOn (keeps_sameNotes_chainTip l index block added) l (.refl l)
  | setBestChain locator =>
    refine .of_entries (agree_setBestChain locator).entries ?_
    show (Ledger.setBestChain locator l).2.noteIndex = _
    unfold Ledger.setBestChain
    dsimp only
    split <;> rfl
  | clearWitnesses => exact sameNotes_clearWitnesses l
  | lockCoin outpoint => exact ⟨fun _ => rfl, rfl⟩
  | unlockCoin outpoint => exact ⟨fun _ => rfl, rfl⟩
  | unlockAllCoins => exact ⟨fun _ => rfl, rfl⟩
  | markDirty => exact .of_entries (agree_markDirty fun _ _ => rfl).entries rfl
  | markAffectedDirty r => exact sameNotes_markAffectedDirty l r
  | ask query =>
    exact .of_entries (keeps_agree_query (fun _ _ => rfl) l _ _ query l (.refl _ l)).entries
      (keeps_onlyEntries_query l _ _ query l (.refl l)).noteIndex
  | planResend bestBlockTime delay =>
    refine .of_entries (agree_planResend _ _ _).entries ?_
    show (l.planResend s.now bestBlockTime delay).2.noteIndex = _
    unfold Ledger.planResend
    split
    · rfl
    dsimp only
    split <;> rfl
  | setStore store => exact ⟨fun _ => rfl, rfl⟩
  | sync | addIfRelevant | addEntry | rescan | erase | deriveNullifiers => exact absurd hop id

/-! ## Taking in a record -/

/-- The same notes are the same by place. -/
theorem identities_eq_of_sameNotes {a b : NoteMap} (h : a.sameNotes b = true) :
    a.identities = b.identities := by
  have pairs : ∀ {l l' : List (NoteLocation × NoteData)}, l.map (·.1) = l'.map (·.1) →
      ((l.map (·.2)).zip (l'.map (·.2))).all (fun p => p.1.sameNote p.2) = true →
      l.map (fun e => (e.1, e.2.identity)) = l'.map fun e => (e.1, e.2.identity) := by
    intro l
    induction l with
    | nil =>
      intro l' hkeys _
      rw [List.map_eq_nil_iff.1 hkeys.symm]
    | cons e rest ih =>
      intro l' hkeys hsame
      cases l' with
      | nil => cases hkeys
      | cons e' rest' =>
        obtain ⟨hkey, hkeys⟩ : e.1 = e'.1 ∧ _ := List.cons.inj hkeys
        simp only [List.map_cons, List.zip_cons_cons, List.all_cons, Bool.and_eq_true] at hsame
        obtain ⟨hfirst, hsame⟩ := hsame
        have identity : e.2.identity = e'.2.identity := by
          simpa [NoteData.sameNote, NoteData.identity] using hfirst
        rw [List.map_cons, List.map_cons, hkey, identity, ih hkeys hsame]
  obtain ⟨hkeys, hsame⟩ := Bool.and_eq_true_iff.1 h
  have listed : a.identities.toList = b.identities.toList := pairs (eq_of_beq hkeys) hsame
  refine SortedMap.ext fun k => ?_
  unfold SortedMap.get?
  rw [listed]

/-- A merge leaves the stored notes, or those found anew if there are any. -/
theorem identities_merge (stored fresh : NoteMap) : (stored.merge fresh).identities =
    if fresh.isEmpty then stored.identities else fresh.identities := by
  have carried : (fresh.carryWitnesses stored).identities = fresh.identities := by
    unfold NoteMap.carryWitnesses NoteMap.identities
    rw [SortedMap.mapValues_mapValues]
    congr 1
    funext location d
    split <;> rfl
  unfold NoteMap.merge
  cases fresh.isEmpty with
  | true => simp
  | false =>
    cases hsame : fresh.sameNotes stored with
    | true => simpa using (identities_eq_of_sameNotes hsame).symm
    | false => simpa using carried

/-- An entry is taken in: its notes are held, and found by their nullifiers. -/
structure TakenIn (incoming : Entry) (l l' : Ledger) : Prop where
  entries : ∀ hash, (l'.entry? hash).map Entry.identities =
    if hash = incoming.hash then some (l.entryWith incoming).identities
    else (l.entry? hash).map Entry.identities
  noteIndex : l'.noteIndex = (l.indexNotes (l.entryWith incoming).notes).noteIndex

/-- So it is once the entry is put into the ledger and then indexed. -/
theorem takenIn_indexEntry {incoming : Entry}
    (entries : ∀ hash, (l'.entry? hash).map witnessedPart =
      if hash = incoming.hash then some (witnessedPart (l.entryWith incoming))
      else (l.entry? hash).map witnessedPart)
    (hi : l'.noteIndex = l.noteIndex) : TakenIn incoming l (l'.indexEntry incoming.hash) := by
  have here := entries incoming.hash
  rw [if_pos rfl] at here
  obtain ⟨e, he, hpart⟩ := Option.map_eq_some_iff.1 here
  have notes : e.notes = (l.entryWith incoming).notes := congrArg Prod.snd hpart
  have indexed : l'.indexEntry incoming.hash = l'.indexNotes e.notes := by
    unfold indexEntry
    rw [he]
  have part : Entry.identities =
      (fun p : Record × NoteMap => (p.1, p.2.identities)) ∘ witnessedPart := rfl
  rw [indexed]
  constructor
  · intro hash
    show (l'.entry? hash).map Entry.identities = _
    rw [part, ← Option.map_map, entries]
    split
    · rfl
    · rw [Option.map_map]
  · rw [notes]
    unfold indexNotes
    rw [hi]

/-- An entry that is added is taken in. -/
theorem takenIn_of_addEntry {chain : ChainView} {now : Int64} {incoming : Entry}
    (hhash : ∀ {hash e}, l.entry? hash = some e → e.hash = hash)
    (h : addEntry chain now incoming l = (.ok (), l')) : TakenIn incoming l l' := by
  obtain ⟨l₀, added, rfl⟩ := added_of_addEntry hhash h
  exact takenIn_indexEntry (added.entries (fun _ _ => rfl) fun _ _ => rfl) added.noteIndex

/-- An entry that is taken in stays so while the notes stay the same. -/
theorem TakenIn.trans {incoming : Entry} (h : TakenIn incoming l l') (h' : SameNotes l' l'') :
    TakenIn incoming l l'' :=
  ⟨fun hash => (h'.entries hash).trans (h.entries hash), h'.noteIndex.trans h.noteIndex⟩

section
variable {keys : KeyView} {chain : ChainView} {now : Int64} {r : Record} {block : Option Block}
  (hhash : ∀ {hash e}, l.entry? hash = some e → e.hash = hash)
include hhash

/-- A notification leaves the ledger as it was, or the record is taken in. -/
theorem sync_cases : (sync keys chain now r block l).2 = l ∨
    (sync keys chain now r block l).1 = .ok () ∧
      TakenIn ((Entry.ofRecord r).offered keys block) l (sync keys chain now r block l).2 := by
  rcases sync_outcomes keys chain now r block l with ⟨outcome, h, -⟩ | ⟨e, h, -⟩ | ⟨l', ha, h⟩
  · exact .inl (congrArg Prod.snd h)
  · exact .inl (congrArg Prod.snd h)
  · rw [h]
    exact .inr ⟨rfl, (takenIn_of_addEntry hhash ha).trans (sameNotes_markAffectedDirty l' r)⟩

/-- A record that is known is taken in again, unless the store refuses. -/
theorem takenIn_sync {e : Entry} (he : l.entry? r.hash = some e)
    (h : (sync keys chain now r block l).1 = .ok ()) :
    TakenIn ((Entry.ofRecord r).offered keys block) l (sync keys chain now r block l).2 := by
  rcases sync_outcomes keys chain now r block l with
    ⟨outcome, -, hnot⟩ | ⟨e, hs, -⟩ | ⟨l', ha, hs⟩
  · exact absurd (concerns_of_entry he _) hnot
  · rw [hs] at h
    cases h
  · rw [hs]
    exact (takenIn_of_addEntry hhash ha).trans (sameNotes_markAffectedDirty l' r)

/-- A record is taken in exactly if the answer is that it is. -/
theorem addIfRelevant_cases (incoming : Entry) (update : Bool) :
    ((addIfRelevant keys chain now incoming block update l).1 ≠ .ok true ∧
      (addIfRelevant keys chain now incoming block update l).2 = l) ∨
    ((addIfRelevant keys chain now incoming block update l).1 = .ok true ∧
      TakenIn (incoming.offered keys block) l
        (addIfRelevant keys chain now incoming block update l).2) := by
  rcases addIfRelevant_outcomes keys chain now incoming block update l with
    ⟨h, -⟩ | ⟨e, h, -⟩ | h
  · rw [h]
    exact .inl ⟨nofun, rfl⟩
  · rw [h]
    exact .inl ⟨nofun, rfl⟩
  · rw [h]
    rcases addEntry_outcomes chain now (incoming.offered keys block) l with
      ⟨e, ha, -⟩ | ⟨-, -, store, -, ha⟩ | ⟨stored, store, -, -, ha⟩
    · rw [ha]
      exact .inl ⟨nofun, rfl⟩
    · exact .inr ⟨by rw [ha]; rfl, takenIn_of_addEntry hhash (by rw [ha])⟩
    · exact .inr ⟨by rw [ha]; rfl, takenIn_of_addEntry hhash (by rw [ha])⟩

/-- All that a step may do to the notes. -/
theorem step_cases {known : Record → Prop} (s : Surroundings) {op : Operation}
    (hop : op.IsStep known) : SameNotes l (op.apply s l) ∨ (∃ hash, op = .erase hash) ∨
      op = .deriveNullifiers ∨ ∃ r block, known r ∧
        TakenIn ((Entry.ofRecord r).offered s.keys block) l (op.apply s l) := by
  rcases hop.cases with hquiet | ⟨hash, rfl⟩ | rfl | ⟨r, hr, ⟨block, rfl⟩ | ⟨block, update, rfl⟩⟩
  · exact .inl (sameNotes_apply s hquiet l)
  · exact .inr (.inl ⟨hash, rfl⟩)
  · exact .inr (.inr (.inl rfl))
  · rcases sync_cases hhash with h | ⟨-, h⟩
    · exact .inl (.of_eq h)
    · exact .inr (.inr (.inr ⟨r, block, hr, h⟩))
  · rcases addIfRelevant_cases hhash (Entry.ofRecord r) update with ⟨-, h⟩ | ⟨-, h⟩
    · exact .inl (.of_eq h)
    · exact .inr (.inr (.inr ⟨r, block, hr, h⟩))

end

/-! ## Erasing -/

/-- With an entry go its notes' places in the index. -/
theorem noteIndex_erase {hash : Hash256} {e : Entry} (he : l.entry? hash = some e) :
    (l.erase hash).2.noteIndex = l.noteIndex.filter fun _ location => location.hash != hash := by
  unfold erase
  rw [he]
  dsimp only
  obtain ⟨spenders, h⟩ := foldl_withdrawSpend hash e.spendKeys
    { l with entries := l.entries.erase hash }
  rw [h]

/-! ## Deriving nullifiers -/

/-- An entry with the nullifiers that the keys can derive. -/
def derivedEntry (keys : KeyView) (e : Entry) : Entry :=
  match e.record with
  | .transaction tx => { e with notes := e.notes.deriveNullifiers keys tx }
  | .certificate _ => e

/-- Deriving nullifiers leaves the record of an entry as it is. -/
@[simp] theorem record_derivedEntry (keys : KeyView) (e : Entry) :
    (derivedEntry keys e).record = e.record := by
  unfold derivedEntry
  split <;> rfl

/-- A certificate has no notes to derive nullifiers for. -/
theorem derivedEntry_of_certificate {e : Entry} {cert : Certificate}
    (h : e.record = .certificate cert) (keys : KeyView) : derivedEntry keys e = e := by
  unfold derivedEntry
  rw [h]

/-- Indexing the notes of entries changes the index only. -/
theorem foldl_indexNotes : ∀ (entries : List Entry) (l : Ledger),
    ∃ noteIndex, entries.foldl (fun l e => l.indexNotes e.notes) l = { l with noteIndex }
  | [], l => ⟨l.noteIndex, rfl⟩
  | e :: rest, l => by
    obtain ⟨noteIndex, h⟩ := foldl_indexNotes rest (l.indexNotes e.notes)
    exact ⟨noteIndex, h⟩

/-- The entry found once nullifiers are derived is the one found before, with its own derived. -/
theorem entry?_deriveNullifiers (l : Ledger) (keys : KeyView) (hash : Hash256) :
    Ledger.entry? (l.deriveNullifiers keys) hash = (l.entry? hash).map (derivedEntry keys) := by
  obtain ⟨noteIndex, h⟩ := foldl_indexNotes (l.mapEntries (derivedEntry keys)).entries.values
    (l.mapEntries (derivedEntry keys))
  have derived : l.deriveNullifiers keys = { l.mapEntries (derivedEntry keys) with noteIndex } := h
  rw [derived]
  exact entry?_mapEntries _ _ _

/-- An entry that is found is found with its nullifiers derived. -/
theorem entry?_deriveNullifiers_of_some {hash : Hash256} {e : Entry} (he : l.entry? hash = some e)
    (keys : KeyView) :
    Ledger.entry? (l.deriveNullifiers keys) hash = some (derivedEntry keys e) := by
  rw [entry?_deriveNullifiers, he]
  rfl

/-! ## Known nullifiers -/

/-- The nullifier that is recorded for the note at a location. -/
def nullifierAt? (l : Ledger) (location : NoteLocation) : Option Hash256 :=
  (l.note? location).bind (·.nullifier)

/-- The nullifier of a note is looked up in the entry that its location names. -/
theorem nullifierAt?_of_entry {location : NoteLocation} {e : Entry}
    (he : l.entry? location.hash = some e) :
    l.nullifierAt? location = e.notes.nullifierAt? location := by
  unfold nullifierAt? note? NoteMap.nullifierAt?
  rw [he]
  rfl

/-- A nullifier that is found is in the entry that the location names. -/
theorem exists_entry_of_nullifierAt? {location : NoteLocation} {n : Hash256}
    (h : l.nullifierAt? location = some n) :
    ∃ e, l.entry? location.hash = some e ∧ e.notes.nullifierAt? location = some n := by
  obtain ⟨d, hd, hn⟩ := Option.bind_eq_some_iff.1 h
  obtain ⟨e, he, hd⟩ := Option.bind_eq_some_iff.1 hd
  exact ⟨e, he, Option.bind_eq_some_iff.2 ⟨d, hd, hn⟩⟩

/-- A nullifier that an entry has at a location is found there, as notes are in the entries that
their locations name. -/
theorem ForNotes.nullifierAt?_eq_some {P : Record → NoteLocation → NoteData → Prop}
    (hl : ForNotes P l) {hash : Hash256} {e : Entry} (he : l.entry? hash = some e)
    {location : NoteLocation} {n : Hash256} (hn : e.notes.nullifierAt? location = some n) :
    location.hash = hash ∧ l.nullifierAt? location = some n := by
  obtain ⟨d, hd, -⟩ := Option.bind_eq_some_iff.1 hn
  obtain ⟨rfl, -⟩ := hl hash e he location d hd
  exact ⟨rfl, (nullifierAt?_of_entry he).trans hn⟩

/-- It is told by what the notes of the entry are. -/
theorem nullifierAt?_eq (l : Ledger) (location : NoteLocation) : l.nullifierAt? location =
    ((l.entry? location.hash).map Entry.identities).bind fun p =>
      (p.2.get? location).bind (·.2) := by
  cases he : l.entry? location.hash with
  | none =>
    unfold nullifierAt? note?
    rw [he]
    rfl
  | some e =>
    rw [nullifierAt?_of_entry he, NoteMap.nullifierAt?_eq]
    rfl

/-- The same notes have the same nullifiers. -/
theorem SameNotes.nullifierAt? (h : SameNotes l l') (location : NoteLocation) :
    l'.nullifierAt? location = l.nullifierAt? location := by
  rw [nullifierAt?_eq, h.entries, ← nullifierAt?_eq]

/-- Ledgers with the same notes hold the same entries. -/
theorem SameNotes.isSome_entry? (h : SameNotes l l') (hash : Hash256) :
    (l'.entry? hash).isSome = (l.entry? hash).isSome := by
  have same := congrArg Option.isSome (h.entries hash)
  rwa [Option.isSome_map, Option.isSome_map] at same

/-- Entries that are held are still held. -/
theorem TakenIn.isSome_entry? {incoming : Entry} (h : TakenIn incoming l l') {hash : Hash256}
    (held : (l.entry? hash).isSome) : (l'.entry? hash).isSome := by
  have entry := congrArg Option.isSome (h.entries hash)
  rw [Option.isSome_map] at entry
  rw [entry]
  split
  · rfl
  · rwa [Option.isSome_map]

/-- For the record that is taken in, the notes are those merged; for others nothing changes. -/
theorem TakenIn.nullifierAt? {incoming : Entry} (h : TakenIn incoming l l')
    (location : NoteLocation) : l'.nullifierAt? location =
      if location.hash = incoming.hash then (l.entryWith incoming).notes.nullifierAt? location
      else l.nullifierAt? location := by
  rw [nullifierAt?_eq, h.entries]
  split
  · rw [NoteMap.nullifierAt?_eq]
    rfl
  · rw [← nullifierAt?_eq]

/-- Erasing an entry takes the nullifiers of its notes away, and no others. -/
theorem nullifierAt?_erase (l : Ledger) (hash : Hash256) (location : NoteLocation) :
    Ledger.nullifierAt? (l.erase hash).2 location =
      if location.hash = hash then none else l.nullifierAt? location := by
  unfold Ledger.nullifierAt? note?
  rw [entry?_erase]
  split <;> rfl

/-- What is known of a note's nullifier stays known when others are derived. -/
theorem nullifierAt?_deriveNullifiers {location : NoteLocation} {n : Hash256}
    (h : l.nullifierAt? location = some n) (keys : KeyView) :
    Ledger.nullifierAt? (l.deriveNullifiers keys) location = some n := by
  obtain ⟨e, he, hn⟩ := exists_entry_of_nullifierAt? h
  obtain ⟨d, hd, hn⟩ := Option.bind_eq_some_iff.1 hn
  rw [nullifierAt?_of_entry (entry?_deriveNullifiers_of_some he keys)]
  unfold derivedEntry
  split
  · unfold NoteMap.nullifierAt? NoteMap.deriveNullifiers
    dsimp only
    rw [SortedMap.get?_mapValues, hd, Option.map_some, Option.bind_some, hn]
    exact hn
  · exact Option.bind_eq_some_iff.2 ⟨d, hd, hn⟩

/-! ## Where notes are -/

variable {known : Record → Prop} {always : Ledger → Prop} {settings : Settings} {store : Store}

/-- A record that is known has a commitment at the location. -/
def PlaceOf (known : Record → Prop) (location : NoteLocation) : Prop :=
  ∃ r, known r ∧ ∃ leaf ∈ r.noteLeaves, leaf.1 = location

/-- The keys find notes where the record has its commitments. -/
theorem exists_leaf_of_found {keys : KeyView} {r : Record} {location : NoteLocation} {d : NoteData}
    (hd : (r.findNotes keys).get? location = some d) :
    ∃ leaf ∈ r.noteLeaves, leaf.1 = location := by
  cases r with
  | certificate cert => cases hd
  | transaction tx =>
    obtain ⟨⟨js, index⟩, hjs, hmem⟩ := List.mem_flatMap.1 (SortedMap.mem_of_get?_ofList hd)
    obtain ⟨n, hn, hfound⟩ := List.mem_filterMap.1 hmem
    obtain ⟨found, -, heq⟩ := Option.map_eq_some_iff.1 hfound
    obtain ⟨rfl, -⟩ := Prod.mk.inj heq
    have inside := List.mem_range.1 hn
    refine ⟨_, List.mem_flatMap.2 ⟨(js, index), hjs, List.mem_map.2
      ⟨(js.commitmentList[n], n), ?_, rfl⟩⟩, rfl⟩
    exact List.mem_zipIdx_iff_getElem?.2 (List.getElem?_eq_getElem inside)

/-- What is said of records and places is kept while the notes stay the same. -/
theorem Holding.of_sameNotes {P : Record → NoteLocation → Prop}
    (hl : Holding known (fun r location _ => P r location) l) (h : SameNotes l l') :
    Holding known (fun r location _ => P r location) l' := by
  have before : ∀ {hash e'}, l'.entry? hash = some e' →
      ∃ e, l.entry? hash = some e ∧ e'.record = e.record ∧
        e'.notes.identities = e.notes.identities := by
    intro hash e' he'
    have hm := h.entries hash
    rw [he'] at hm
    obtain ⟨e, he, hp⟩ := Option.map_eq_some_iff.1 hm.symm
    exact ⟨e, he, congrArg Prod.fst hp.symm, congrArg Prod.snd hp.symm⟩
  refine ⟨fun hash e' he' => ?_, fun hash e' he' location d' hd' => ?_⟩
  · obtain ⟨e, he, hr, -⟩ := before he'
    have := hl.entries hash e he
    rwa [Entry.hash, hr]
  · obtain ⟨e, he, hr, hids⟩ := before he'
    have found : e'.notes.identities.get? location = some d'.identity := by
      unfold NoteMap.identities
      rw [SortedMap.get?_mapValues, hd']
      rfl
    unfold NoteMap.identities at found hids
    rw [hids, SortedMap.get?_mapValues] at found
    obtain ⟨d, hd, -⟩ := Option.map_eq_some_iff.1 found
    rw [hr]
    exact hl.notes hash e he location d hd

/-- Every entry is of a record that was seen, and every note is where such a record has a
commitment. -/
theorem RunOf.holding_places (hl : RunOf known always settings store l) :
    Holding known (fun _ location _ => PlaceOf known location) l := by
  have ofWitnesses : OfWitnesses fun _ location _ => PlaceOf known location :=
    fun _ _ _ _ _ _ h => h
  refine hl.induct ⟨fun _ _ he => (nomatch he), fun _ _ he => (nomatch he)⟩
    fun s op l hop _ hl => ?_
  have found : ∀ {r}, known r → ∀ location d, (r.findNotes s.keys).get? location = some d →
      ∀ _ : Record, PlaceOf known location :=
    fun hr _ _ hd _ => ⟨_, hr, exists_leaf_of_found hd⟩
  rcases hop.cases with hquiet | ⟨hash, rfl⟩ | rfl | ⟨r, hr, ⟨block, rfl⟩ | ⟨block, update, rfl⟩⟩
  · exact hl.of_sameNotes (sameNotes_apply s hquiet l)
  · exact hl.erase hash
  · exact hl.deriveNullifiers ofWitnesses s.keys
  · exact keeps_holding_sync s.keys _ s.now hr ofWitnesses (found hr) block l hl
  · exact keeps_holding_addIfRelevant s.keys _ s.now hr ofWitnesses (found hr) block update l hl

end Ledger
end ShieldedLedger
