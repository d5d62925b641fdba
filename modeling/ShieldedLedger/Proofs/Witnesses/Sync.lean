import ShieldedLedger.Proofs.SpendIndex
import ShieldedLedger.Proofs.Witnesses.Update

/-!
# Witnesses between chain updates

What happens to a ledger between two chain updates leaves every witness where it is: a note that is
found has none yet, a note that is found again keeps those it has (`NoteMap.merge`), and to erase an
entry, to unlock the keys or to forget all witnesses takes no note anywhere else. What only depends
on a note's witnesses is kept for all notes at once (`Holding`). So the ledger's witnesses stay
those of the last blocks of the chain (`Witnessed`), whatever is taken in and in whatever order.
-/

namespace ShieldedLedger

/-! ## Notes that are found -/

/-- The note is in the record with this hash, and has no witnesses yet. -/
def IsFound (hash : Hash256) (location : NoteLocation) (d : NoteData) : Prop :=
  location.hash = hash ∧ d.witnesses = [] ∧ d.witnessHeight = -1

/-- Every note that is found in a record is one of that record, and has no witnesses yet. -/
theorem isFound_findNotes {keys : KeyView} {r : Record} {location : NoteLocation} {d : NoteData}
    (hd : (r.findNotes keys).get? location = some d) : IsFound r.hash location d := by
  cases r with
  | certificate cert => cases hd
  | transaction tx =>
    obtain ⟨⟨js, index⟩, -, hmem⟩ := List.mem_flatMap.1 (SortedMap.mem_of_get?_ofList hd)
    obtain ⟨n, -, hfound⟩ := List.mem_filterMap.1 hmem
    obtain ⟨found, -, heq⟩ := Option.map_eq_some_iff.1 hfound
    obtain ⟨rfl, rfl⟩ := Prod.mk.inj heq
    exact ⟨rfl, rfl, rfl⟩

/-- A note after a merge is a note that was stored, or one found anew with the witnesses it had. -/
theorem NoteMap.get?_merge {stored fresh : NoteMap} {location : NoteLocation} {d : NoteData}
    (hd : (stored.merge fresh).get? location = some d) :
    stored.get? location = some d ∨ ∃ found, fresh.get? location = some found ∧
      (stored.get? location = none ∧ d = found ∨
        ∃ old, stored.get? location = some old ∧ d.witnesses = old.witnesses ∧
          d.witnessHeight = old.witnessHeight) := by
  unfold NoteMap.merge at hd
  split at hd
  · exact .inl hd
  · unfold NoteMap.carryWitnesses at hd
    rw [SortedMap.get?_mapValues] at hd
    obtain ⟨found, hfound, rfl⟩ := Option.map_eq_some_iff.1 hd
    refine .inr ⟨found, hfound, ?_⟩
    cases hs : stored.get? location with
    | none => exact .inl ⟨rfl, rfl⟩
    | some old => exact .inr ⟨old, rfl, rfl, rfl⟩

namespace Ledger

variable {l l' : Ledger}

/-! ## The witness cache size -/

/-- Steps that leave the cache size alone do so one after the other. -/
theorem cacheSize_foldl {α : Type} {step : Ledger → α → Ledger}
    (h : ∀ l a, (step l a).cacheSize = l.cacheSize) :
    ∀ (items : List α) (l : Ledger), (items.foldl step l).cacheSize = l.cacheSize
  | [], _ => rfl
  | a :: rest, l => (cacheSize_foldl h rest (step l a)).trans (h l a)

/-- Ledgers that differ only in their entries have the same cache size. -/
theorem OnlyEntries.cacheSize (h : OnlyEntries l l') : l'.cacheSize = l.cacheSize := by
  obtain ⟨_, _, rfl⟩ := h
  rfl

/-- Ledgers that differ only in their entries have the same settings. -/
theorem OnlyEntries.settings (h : OnlyEntries l l') : l'.settings = l.settings := by
  obtain ⟨_, _, rfl⟩ := h
  rfl

/-- Indexing an entry leaves the cache size as it is. -/
theorem cacheSize_indexEntry (l : Ledger) (hash : Hash256) :
    (l.indexEntry hash).cacheSize = l.cacheSize := by
  unfold indexEntry
  split <;> rfl

/-- Nor does adding an entry change it. -/
theorem keeps_cacheSize_addEntry (view : ChainView) (now : Int64) (incoming : Entry) (size : Nat) :
    Keeps (fun l => l.cacheSize = size) (addEntry view now incoming) := by
  intro l hl
  rcases addEntry_cases view now incoming l with h | ⟨-, store, h⟩ | ⟨stored, store, -, h⟩
  · rwa [h]
  · rw [h, cacheSize_indexEntry, (onlyEntries_registerSpends _ _).cacheSize]
    exact hl
  · rw [h, cacheSize_indexEntry]
    exact hl

/-! ## What is left alone -/

/-- What the witnesses are about in an entry: the record and its notes. -/
def witnessedPart (e : Entry) : Record × NoteMap := (e.record, e.notes)

/-- But for what it inserts, registering an entry changes nothing that the witnesses are about. -/
theorem witnessedPart_registerSpends (l : Ledger) (hash hash' : Hash256) :
    (Ledger.entry? (l.registerSpends hash) hash').map witnessedPart =
      (l.entry? hash').map witnessedPart :=
  entries_registerSpends (fun _ _ => rfl) (fun _ _ => rfl) l hash hash'

/-- Adding an entry leaves the settings as they are. -/
theorem keeps_settings_addEntry (view : ChainView) (now : Int64) (incoming : Entry)
    (settings : Settings) :
    Keeps (fun l => l.settings = settings) (addEntry view now incoming) := by
  have indexed : ∀ (l : Ledger) hash, (l.indexEntry hash).settings = l.settings := fun _ hash =>
    (agree_indexEntry (f := id) hash).settings
  intro l hl
  rcases addEntry_cases view now incoming l with h | ⟨-, store, h⟩ | ⟨stored, store, -, h⟩
  · rwa [h]
  · rw [h, indexed, (onlyEntries_registerSpends _ _).settings]
    exact hl
  · rw [h, indexed]
    exact hl

/-! ## Notes between chain updates -/

variable {known : Record → Prop} {P : Record → NoteLocation → NoteData → Prop}

/-- Every entry is of a record in `known` and is found by its hash, and every note satisfies `P`. -/
structure Holding (known : Record → Prop) (P : Record → NoteLocation → NoteData → Prop)
    (l : Ledger) : Prop where
  /-- An entry is found by the hash of its record, which is one of those known. -/
  entries : ∀ hash e, l.entry? hash = some e → e.hash = hash ∧ known e.record
  /-- The notes are as `P` says. -/
  notes : ForNotes P l

/-- What `P` says of a note is about its witnesses and their height alone. -/
def OfWitnesses (P : Record → NoteLocation → NoteData → Prop) : Prop :=
  ∀ r location d d', d'.witnesses = d.witnesses → d'.witnessHeight = d.witnessHeight →
    P r location d → P r location d'

namespace Holding

/-- What is held depends on the records, the hashes and the notes of the entries only. -/
theorem of_entries (hl : Holding known P l)
    (h : ∀ hash, (l'.entry? hash).map witnessedPart = (l.entry? hash).map witnessedPart) :
    Holding known P l' := by
  have before : ∀ {hash e'}, l'.entry? hash = some e' →
      ∃ e, l.entry? hash = some e ∧ e'.record = e.record ∧ e'.notes = e.notes := by
    intro hash e' he'
    have hm := h hash
    rw [he'] at hm
    obtain ⟨e, he, hp⟩ := Option.map_eq_some_iff.1 hm.symm
    exact ⟨e, he, congrArg Prod.fst hp.symm, congrArg Prod.snd hp.symm⟩
  refine ⟨fun hash e' he' => ?_, fun hash e' he' location d hd => ?_⟩
  · obtain ⟨e, he, hr, -⟩ := before he'
    have := hl.entries hash e he
    rwa [Entry.hash, hr]
  · obtain ⟨e, he, hr, hn⟩ := before he'
    rw [hn] at hd
    rw [hr]
    exact hl.notes hash e he location d hd

/-- Registering spends changes nothing about what is held. -/
theorem registerSpends (hl : Holding known P l) (hash : Hash256) :
    Holding known P (l.registerSpends hash) :=
  hl.of_entries (witnessedPart_registerSpends l hash)

/-- Indexing an entry changes nothing about what is held. -/
theorem indexEntry (hl : Holding known P l) (hash : Hash256) :
    Holding known P (l.indexEntry hash) :=
  hl.of_entries (agree_indexEntry hash).entries

/-- An entry is put into the ledger, in place of the one with its hash if there is one. -/
theorem of_insert (hl : Holding known P l) {e : Entry} (hknown : known e.record)
    (hnotes : ∀ location d, e.notes.get? location = some d →
      location.hash = e.hash ∧ P e.record location d)
    (entries : ∀ hash, l'.entry? hash = if hash = e.hash then some e else l.entry? hash) :
    Holding known P l' := by
  refine ⟨fun hash e' he' => ?_, fun hash e' he' location d hd => ?_⟩
  · rw [entries] at he'
    split at he'
    · next hh =>
      obtain rfl := Option.some.inj he'
      exact ⟨hh.symm, hknown⟩
    · exact hl.entries hash e' he'
  · rw [entries] at he'
    split at he'
    · next hh =>
      obtain rfl := Option.some.inj he'
      rw [hh]
      exact hnotes location d hd
    · exact hl.notes hash e' he' location d hd

end Holding

/-- Adding an entry with notes of its own record, which are as `P` says. -/
theorem keeps_holding_addEntry (view : ChainView) (now : Int64) {incoming : Entry}
    (hknown : known incoming.record) (hP : OfWitnesses P)
    (hfound : ∀ location d, incoming.notes.get? location = some d →
      location.hash = incoming.hash ∧ ∀ r, P r location d) :
    Keeps (Holding known P) (addEntry view now incoming) := by
  intro l hl
  have found : ∀ {r location d}, incoming.notes.get? location = some d →
      location.hash = incoming.hash ∧ P r location d :=
    fun hd => ⟨(hfound _ _ hd).1, (hfound _ _ hd).2 _⟩
  rcases addEntry_cases view now incoming l with h | ⟨hnew, store, h⟩ | ⟨stored, store, hs, h⟩
  · rwa [h]
  · rw [h]
    have inserted : Holding known P
        (l.withNew (incoming.received view now l.nextOrder).markDirty store) :=
      hl.of_insert (e := (incoming.received view now l.nextOrder).markDirty) hknown
        (fun _ _ => found) (entry?_withNew l _ store)
    exact (inserted.registerSpends incoming.hash).indexEntry incoming.hash
  · rw [h]
    obtain ⟨hhash, hstored⟩ := hl.entries _ _ hs
    have merged : Holding known P (l.withMerged (stored.merge incoming).markDirty store) := by
      refine hl.of_insert (e := (stored.merge incoming).markDirty) hstored (fun location d hd => ?_)
        (entry?_withMerged l _ store)
      -- the notes that were stored are kept, whatever is found anew
      have kept : ∀ {d}, stored.notes.get? location = some d →
          location.hash = stored.hash ∧ P stored.record location d := by
        intro d hd
        rw [hhash]
        exact hl.notes _ _ hs location d hd
      have hd : (stored.merge incoming).notes.get? location = some d := hd
      unfold Entry.merge at hd
      split at hd
      · rcases NoteMap.get?_merge hd with hd | ⟨fresh, hfresh, ⟨-, rfl⟩ | ⟨old, hold, hw, hh⟩⟩
        · exact kept hd
        · obtain ⟨hloc, hd⟩ := found hfresh
          exact ⟨hloc.trans hhash.symm, hd⟩
        · obtain ⟨hloc, hold⟩ := kept hold
          exact ⟨hloc, hP _ _ _ _ hw hh hold⟩
      · exact kept hd
    exact merged.indexEntry incoming.hash

section
variable (keys : KeyView) (view : ChainView) (now : Int64) {r : Record} (hr : known r)
  (hP : OfWitnesses P)
  (hfound : ∀ location d, (r.findNotes keys).get? location = some d → ∀ r', P r' location d)
include hr hP hfound

/-- Adding an entry for a record, without notes or with those that the keys find. -/
theorem keeps_holding_addRecord {notes : NoteMap} {link : MerkleLink}
    (hnotes : notes = SortedMap.empty ∨ notes = r.findNotes keys) :
    Keeps (Holding known P) (addEntry view now { Entry.ofRecord r with notes, link }) := by
  refine keeps_holding_addEntry view now hr hP fun location d hd => ?_
  rcases hnotes with rfl | rfl
  · cases hd
  · exact ⟨(isFound_findNotes hd).1, hfound location d hd⟩

/-- Taking in a record, known or not, in a block or not. -/
theorem keeps_holding_addIfRelevant (block : Option Block) (update : Bool) :
    Keeps (Holding known P) (addIfRelevant keys view now (Entry.ofRecord r) block update) :=
  keeps_addIfRelevant fun _ _ hnotes => keeps_holding_addRecord keys view now hr hP hfound hnotes

/-- A notification, of a record in a block or not. -/
theorem keeps_holding_sync (block : Option Block) :
    Keeps (Holding known P) (sync keys view now r block) :=
  keeps_sync (fun _ _ hnotes => keeps_holding_addRecord keys view now hr hP hfound hnotes)
    fun _ hl => hl.of_entries (agree_markAffectedDirty (fun _ _ => rfl) r).entries

end

/-- Taking in a record leaves the cache size as it is. -/
theorem keeps_cacheSize_addIfRelevant (keys : KeyView) (view : ChainView) (now : Int64)
    {incoming : Entry} (block : Option Block) (update : Bool) (size : Nat) :
    Keeps (fun l => l.cacheSize = size) (addIfRelevant keys view now incoming block update) :=
  keeps_addIfRelevant fun _ _ _ => keeps_cacheSize_addEntry view now _ size

/-- Taking in a record leaves the settings as they are. -/
theorem keeps_settings_addIfRelevant (keys : KeyView) (view : ChainView) (now : Int64)
    {incoming : Entry} (block : Option Block) (update : Bool) (settings : Settings) :
    Keeps (fun l => l.settings = settings) (addIfRelevant keys view now incoming block update) :=
  keeps_addIfRelevant fun _ _ _ => keeps_settings_addEntry view now _ settings

/-- Syncing leaves the cache size as it is. -/
theorem keeps_cacheSize_sync (keys : KeyView) (view : ChainView) (now : Int64) {r : Record}
    (block : Option Block) (size : Nat) :
    Keeps (fun l => l.cacheSize = size) (sync keys view now r block) :=
  keeps_sync (fun _ _ _ => keeps_cacheSize_addEntry view now _ size) fun l hl =>
    (onlyEntries_markAffectedDirty l r).cacheSize.trans hl

/-- Syncing leaves the settings as they are. -/
theorem keeps_settings_sync (keys : KeyView) (view : ChainView) (now : Int64) {r : Record}
    (block : Option Block) (settings : Settings) :
    Keeps (fun l => l.settings = settings) (sync keys view now r block) :=
  keeps_sync (fun _ _ _ => keeps_settings_addEntry view now _ settings) fun _ hl =>
    (agree_markAffectedDirty (f := witnessedPart) (fun _ _ => rfl) r).settings.trans hl

/-- What is held without an entry was held with it. -/
theorem Holding.erase (hl : Holding known P l) (hash : Hash256) :
    Holding known P (l.erase hash).2 :=
  ⟨fun hash' e he => hl.entries hash' e (entry?_of_erase he),
    fun hash' e he => hl.notes hash' e (entry?_of_erase he)⟩

/-- Deriving nullifiers keeps what is said of witnesses alone. -/
theorem Holding.deriveNullifiers (hl : Holding known P l) (hP : OfWitnesses P) (keys : KeyView) :
    Holding known P (l.deriveNullifiers keys) := by
  unfold Ledger.deriveNullifiers
  refine Holding.of_entries ?_ (agree_foldl (fun l (e : Entry) =>
    (⟨fun _ => rfl, rfl, rfl, rfl⟩ : Agree witnessedPart l (l.indexNotes e.notes))) _ _).entries
  refine ⟨fun hash e' he' => ?_, fun hash e' he' location d hd => ?_⟩
  · rw [entry?_mapEntries] at he'
    obtain ⟨e, he, rfl⟩ := Option.map_eq_some_iff.1 he'
    have := hl.entries hash e he
    split <;> exact this
  · rw [entry?_mapEntries] at he'
    obtain ⟨e, he, rfl⟩ := Option.map_eq_some_iff.1 he'
    have kept := hl.notes hash e he location
    revert hd
    split
    · intro hd
      replace hd : (e.notes.deriveNullifiers keys _).get? location = some d := hd
      unfold NoteMap.deriveNullifiers at hd
      rw [SortedMap.get?_mapValues] at hd
      obtain ⟨old, hold, rfl⟩ := Option.map_eq_some_iff.1 hd
      obtain ⟨hloc, hkept⟩ := kept old hold
      refine ⟨hloc, ?_⟩
      split <;> exact hP _ _ old _ rfl rfl hkept
    · exact kept d

/-! ## Witnesses of the last blocks -/

variable {own : Record → NoteLeaf → Prop} {chain : List (List NoteLeaf)}

/-- A note is as `Witnessed` says if its witnesses are those of the last blocks. -/
theorem Witnessed.holding (hl : Witnessed own known chain l) :
    Holding known (fun r => NoteKept (own r) chain (chain.length - 1) l.cacheSize) l :=
  ⟨hl.entries, hl.notes⟩

/-- The witnesses stay those of the last blocks if the notes are kept and neither the cache size nor
the settings change. -/
theorem Witnessed.of_holding (hl : Witnessed own known chain l)
    (h : Holding known (fun r => NoteKept (own r) chain (chain.length - 1) l.cacheSize) l')
    (hsize : l'.cacheSize = l.cacheSize) (hsettings : l'.settings = l.settings) :
    Witnessed own known chain l' := by
  refine ⟨by rw [hsize, hsettings]; exact hl.cacheSize_le, h.entries, ?_⟩
  have notes := h.notes
  rwa [← hsize] at notes

/-- Whether a note is kept is about its witnesses and their height alone. -/
theorem ofWitnesses_noteKept (own : Record → NoteLeaf → Prop) (chain : List (List NoteLeaf))
    (tip : Int) (size : Nat) : OfWitnesses fun r => NoteKept (own r) chain tip size :=
  fun _ _ _ _ hw hh hd => hd.congr hw hh

/-- A notification, of a record in a block or not. -/
theorem keeps_witnessed_sync (keys : KeyView) (view : ChainView) (now : Int64) {r : Record}
    (block : Option Block) (hr : known r) :
    Keeps (Witnessed own known chain) (sync keys view now r block) := by
  intro l hl
  have held := keeps_holding_sync keys view now hr (ofWitnesses_noteKept own chain _ _)
    (fun _ _ hd _ => .of_nil (isFound_findNotes hd).2.1 (isFound_findNotes hd).2.2) block l
    hl.holding
  exact hl.of_holding held (keeps_cacheSize_sync keys view now block _ l rfl)
    (keeps_settings_sync keys view now block _ l rfl)

/-! ## Erasing, unlocking, forgetting -/

/-- Without an entry, the witnesses of the others are still those of the last blocks. -/
theorem Witnessed.erase (hl : Witnessed own known chain l) (hash : Hash256) :
    Witnessed own known chain (l.erase hash).2 := by
  have sizes : (l.erase hash).2.cacheSize = l.cacheSize ∧
      (l.erase hash).2.settings = l.settings := by
    unfold Ledger.erase
    split
    · exact ⟨rfl, rfl⟩
    · next e _ =>
      dsimp only
      obtain ⟨spenders, h⟩ := foldl_withdrawSpend hash e.spendKeys
        { l with entries := l.entries.erase hash }
      rw [h]
      exact ⟨rfl, rfl⟩
  exact hl.of_holding (hl.holding.erase hash) sizes.1 sizes.2

/-- With nullifiers derived, the witnesses are still those of the last blocks. -/
theorem Witnessed.deriveNullifiers (hl : Witnessed own known chain l) (keys : KeyView) :
    Witnessed own known chain (l.deriveNullifiers keys) := by
  have size : (l.deriveNullifiers keys).cacheSize = l.cacheSize := by
    unfold Ledger.deriveNullifiers
    exact cacheSize_foldl (fun _ _ => by rfl) _ _
  exact hl.of_holding (hl.holding.deriveNullifiers (ofWitnesses_noteKept _ _ _ _) keys) size
    (agree_deriveNullifiers (f := Entry.record) (fun _ _ _ => rfl) keys).settings

/-- With no witnesses left, and none accounted for, the last blocks have nothing to contradict. -/
theorem Witnessed.clearWitnesses (hl : Witnessed own known chain l) :
    Witnessed own known chain l.clearWitnesses := by
  refine ⟨Nat.zero_le _, Agree.records (agree_clearWitnesses fun _ _ _ => rfl) hl.entries, ?_⟩
  have cleared : NotesKept own chain (chain.length - 1)
      { l.mapNotes NoteData.clearWitnesses with cacheSize := 0 } :=
    ForNotes.of_entries (l := l.mapNotes NoteData.clearWitnesses)
      (hl.notes.mapNotes fun _ _ _ _ => .of_nil rfl rfl) rfl
  exact cleared

end Ledger
end ShieldedLedger
