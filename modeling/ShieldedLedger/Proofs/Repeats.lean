import ShieldedLedger.Proofs.Confirmations
import ShieldedLedger.Proofs.Notes.AsFound

/-!
# Repeated notifications

An entry has absorbed one that is offered if merging takes over nothing of it any more
(`Entry.Absorbs`). Merging twice is merging once, so an entry that has been added is absorbed
(`Ledger.absorbs_entryWith`). To take in a record that is absorbed writes nothing, and changes
nothing but memoized amounts and the index, in which the notes are indexed again
(`Ledger.sync_of_absorbs`). So the same record with the same block, once more, is harmless
(`Ledger.sync_again`).

A record that is seen again unconfirmed is absorbed if the keys find the notes in it that are
stored, as fixed keys do. Its notes need not be indexed: where two notes were held with one
nullifier, the index found one of them, and none once that one was erased
(`Ledger.lost_note_put_back`). The index has lost nothing if no two notes were ever held with one
nullifier (`Ledger.repeats_harmless`).
-/

namespace ShieldedLedger

/-! ## Merging twice -/

namespace MerkleLink

/-- A link that was merged in changes nothing when it is merged in again. -/
theorem merge_merge (stored link : MerkleLink) :
    (stored.merge link).merge link = stored.merge link := by
  obtain ⟨block, branch, index⟩ := link
  unfold merge
  cases index <;> dsimp only <;> split <;> rfl

/-- A link merged into itself stays as it is. -/
theorem merge_self (link : MerkleLink) : link.merge link = link := by
  obtain ⟨block, branch, index⟩ := link
  unfold merge
  cases index <;> simp

end MerkleLink

namespace NoteMap

/-- Notes that are the same by place are the same. -/
theorem sameNotes_of_identities_eq {a b : NoteMap} (h : a.identities = b.identities) :
    a.sameNotes b = true := by
  have all : ∀ {ds ds' : List NoteData}, ds.map NoteData.identity = ds'.map NoteData.identity →
      (ds.zip ds').all (fun p => p.1.sameNote p.2) = true := by
    intro ds
    induction ds with
    | nil => exact fun _ => rfl
    | cons d rest ih =>
      intro ds' hsame
      cases ds' with
      | nil => cases hsame
      | cons d' rest' =>
        obtain ⟨hfirst, hrest⟩ := List.cons.inj hsame
        have same : d.sameNote d' = true := by
          simpa [NoteData.sameNote, NoteData.identity] using hfirst
        rw [List.zip_cons_cons, List.all_cons, same, ih hrest]
        rfl
  have listed : a.toList.map (fun e => (e.1, e.2.identity)) =
      b.toList.map fun e => (e.1, e.2.identity) := congrArg SortedMap.toList h
  have keys : a.keys = b.keys := by
    have fsts := congrArg (List.map Prod.fst) listed
    rwa [List.map_map, List.map_map] at fsts
  have values : a.values.map NoteData.identity = b.values.map NoteData.identity := by
    have snds := congrArg (List.map Prod.snd) listed
    rw [List.map_map, List.map_map] at snds
    unfold SortedMap.values
    rwa [List.map_map, List.map_map]
  exact Bool.and_eq_true_iff.2 ⟨beq_iff_eq.2 keys, all values⟩

/-- Notes found anew that are the same, or none, leave those stored as they are. -/
theorem merge_eq_self {stored fresh : NoteMap}
    (h : fresh.isEmpty = true ∨ fresh.identities = stored.identities) :
    stored.merge fresh = stored := by
  refine if_pos (Bool.or_eq_true_iff.2 (h.imp_right ?_))
  exact sameNotes_of_identities_eq

/-- Notes that were merged in change nothing when they are merged in again. -/
theorem merge_merge (stored fresh : NoteMap) :
    (stored.merge fresh).merge fresh = stored.merge fresh := by
  refine merge_eq_self ?_
  cases hempty : fresh.isEmpty with
  | true => exact .inl rfl
  | false =>
    rw [Ledger.identities_merge, hempty]
    exact .inr rfl

end NoteMap

namespace Entry

/-- Merging takes over nothing of the incoming entry's link and notes. -/
structure Absorbs (e incoming : Entry) : Prop where
  link : e.link.merge incoming.link = e.link
  notes : ∀ tx, e.record = .transaction tx → e.notes.merge incoming.notes = e.notes

variable {e e' stored incoming : Entry}

/-- The part of an entry that decides what it absorbs. -/
def absorbingPart (e : Entry) : Record × MerkleLink × NoteMap := (e.record, e.link, e.notes)

/-- What an entry absorbs depends on its record, its link and its notes alone. -/
theorem Absorbs.congr (h : e.Absorbs incoming) (same : e'.absorbingPart = e.absorbingPart) :
    e'.Absorbs incoming := by
  have hrecord : e'.record = e.record := congrArg Prod.fst same
  have hlink : e'.link = e.link := congrArg (·.2.1) same
  have hnotes : e'.notes = e.notes := congrArg (·.2.2) same
  constructor
  · rw [hlink, h.link]
  · intro tx htx
    rw [hnotes, h.notes tx (hrecord.symm.trans htx)]

/-- An entry absorbs itself. -/
theorem Absorbs.refl (e : Entry) : e.Absorbs e :=
  ⟨e.link.merge_self, fun _ _ => NoteMap.merge_eq_self (.inr rfl)⟩

/-- What was merged in is absorbed. -/
theorem Absorbs.merge (stored incoming : Entry) : (stored.merge incoming).Absorbs incoming where
  link := stored.link.merge_merge incoming.link
  notes tx htx := by
    have htx : stored.record = .transaction tx := htx
    have notes : (stored.merge incoming).notes = stored.notes.merge incoming.notes := by
      unfold Entry.merge
      rw [htx]
    rw [notes, NoteMap.merge_merge]

/-- If it was not made by us either, it changes nothing. -/
theorem Absorbs.merge_eq (h : e.Absorbs incoming) (hfrom : incoming.info.fromMe = false) :
    e.merge incoming = e := by
  have notes : (e.merge incoming).notes = e.notes := by
    unfold Entry.merge
    cases htx : e.record with
    | transaction tx => exact h.notes tx htx
    | certificate _ => rfl
  have info : (e.merge incoming).info = e.info := by
    show { e.info with fromMe := e.info.fromMe || incoming.info.fromMe } = e.info
    rw [hfrom, Bool.or_false]
  calc e.merge incoming
      = { e with
          link := e.link.merge incoming.link
          notes := (e.merge incoming).notes
          info := (e.merge incoming).info } := rfl
    _ = e := by rw [h.link, notes, info]

/-- An entry does not differ from itself. -/
theorem differs_self (e : Entry) : e.differs e = false := by
  have same : e.notes.sameNotes e.notes = true := NoteMap.sameNotes_of_identities_eq rfl
  simp [differs, same]

end Entry

namespace Ledger

variable {l l' : Ledger} {keys : KeyView} {chain chain' : ChainView} {now now' : Int64}

/-- An entry that is added is absorbed. -/
theorem absorbs_entryWith (l : Ledger) (incoming : Entry) :
    (l.entryWith incoming).Absorbs incoming := by
  cases he : l.entry? incoming.hash with
  | none =>
    rw [entryWith_of_none he]
    exact .refl incoming
  | some stored =>
    rw [entryWith_of_some he]
    exact .merge stored incoming

/-- An entry is added under its own hash, whether it is new or merged. -/
theorem hash_entryWith (hkeyed : ∀ {hash e}, l.entry? hash = some e → e.hash = hash)
    (incoming : Entry) : (l.entryWith incoming).hash = incoming.hash := by
  cases he : l.entry? incoming.hash with
  | none => rw [entryWith_of_none he]
  | some stored =>
    rw [entryWith_of_some he]
    exact (hkeyed he : stored.hash = incoming.hash)

/-! ## Indexing twice -/

/-- Notes that are found already are indexed already. -/
theorem indexNotes_of_found {notes : NoteMap} (h : ∀ location n,
    notes.nullifierAt? location = some n → l.noteWithNullifier? n = some location) :
    l.indexNotes notes = l := by
  have kept : ∀ items : List (NoteLocation × NoteData), (∀ item ∈ items, item ∈ notes.toList) →
      items.foldl indexNote l.noteIndex = l.noteIndex := by
    intro items
    induction items with
    | nil => exact fun _ => rfl
    | cons item rest ih =>
      intro hmem
      have hd := SortedMap.mem_toList_iff.1 (hmem item List.mem_cons_self)
      have first : indexNote l.noteIndex item = l.noteIndex := by
        unfold indexNote
        cases hn : item.2.nullifier with
        | none => rfl
        | some n =>
          have found := h item.1 n (Option.bind_eq_some_iff.2 ⟨item.2, hd, hn⟩)
          refine SortedMap.ext fun m => ?_
          rw [Option.elim_some, SortedMap.get?_insert_eq_ite]
          split
          · next hm => rw [hm]; exact found.symm
          · rfl
      rw [List.foldl_cons, first]
      exact ih fun item hitem => hmem item (List.mem_cons_of_mem _ hitem)
  rw [indexNotes_eq, kept _ fun _ h => h]

/-- What an index finds for nullifiers of notes that are added to it is forgotten. -/
theorem foldl_indexNote_congr : ∀ {items : List (NoteLocation × NoteData)}
    {index index' : SortedMap Hash256 NoteLocation},
    (∀ n, (∀ item ∈ items, item.2.nullifier ≠ some n) → index.get? n = index'.get? n) →
      items.foldl indexNote index = items.foldl indexNote index'
  | [], _, _, h => SortedMap.ext fun n => h n fun _ hmem => absurd hmem List.not_mem_nil
  | item :: rest, index, index', h => by
    rw [List.foldl_cons, List.foldl_cons]
    refine foldl_indexNote_congr fun n hrest => ?_
    have unclaimed : item.2.nullifier ≠ some n → index.get? n = index'.get? n := fun hn =>
      h n fun item' hmem => (List.mem_cons.1 hmem).elim (fun heq => heq ▸ hn) (hrest item')
    unfold indexNote
    cases hn : item.2.nullifier with
    | none => exact unclaimed (hn ▸ nofun)
    | some m =>
      rw [Option.elim_some, Option.elim_some, SortedMap.get?_insert_eq_ite,
        SortedMap.get?_insert_eq_ite]
      split
      · rfl
      · next hne => exact unclaimed fun h => hne (Option.some.inj (hn.symm.trans h)).symm

/-- Notes that were indexed last are indexed already. -/
theorem indexNotes_of_noteIndex {l₀ : Ledger} {notes : NoteMap}
    (h : l.noteIndex = (l₀.indexNotes notes).noteIndex) : l.indexNotes notes = l := by
  have again : notes.toList.foldl indexNote l.noteIndex =
      notes.toList.foldl indexNote l₀.noteIndex := by
    refine foldl_indexNote_congr fun n hnone => ?_
    rw [h]
    rcases renews_indexNotes l₀ notes n with ⟨location, hclaim, -⟩ | ⟨-, hsame⟩
    · obtain ⟨d, hd, hn⟩ := Option.bind_eq_some_iff.1 hclaim
      exact absurd hn (hnone (location, d) (SortedMap.mem_toList_iff.2 hd))
    · exact hsame
  rw [indexNotes_eq] at h
  have kept : notes.toList.foldl indexNote l.noteIndex = l.noteIndex := again.trans h.symm
  rw [indexNotes_eq, kept]

/-- Ledgers that are the same but for memoized amounts have the same index. -/
theorem noteIndex_of_markDirty_eq (h : l'.markDirty = l.markDirty) :
    l'.noteIndex = l.noteIndex := by
  show l'.markDirty.noteIndex = l.markDirty.noteIndex
  rw [h]

/-- To index an entry that is held is to index its notes. -/
theorem indexEntry_of_entry {hash : Hash256} {e : Entry} (he : l.entry? hash = some e) :
    l.indexEntry hash = l.indexNotes e.notes := by
  unfold indexEntry
  rw [he]

/-! ## Taking in what is absorbed -/

/-- To forget some memoized amounts and then all is to forget all. -/
theorem markDirty_markAffectedDirty (l : Ledger) (r : Record) :
    (l.markAffectedDirty r).markDirty = l.markDirty := by
  have kept : ∀ (hashes : List Hash256) (l : Ledger),
      (hashes.foldl (fun l hash => l.modifyEntry hash Entry.markDirty) l).markDirty =
        l.markDirty := by
    intro hashes
    induction hashes with
    | nil => exact fun _ => rfl
    | cons hash rest ih =>
      intro l
      rw [List.foldl_cons, ih]
      exact markDirty_modifyEntry (f := Entry.markDirty) l (fun _ => rfl) hash
  exact kept _ l

/-- An entry that is absorbed changes nothing but memoized amounts and the index, in which its notes
are indexed again. Nothing is written. -/
theorem addEntry_of_absorbs (chain : ChainView) (now : Int64) (incoming : Entry) {e : Entry}
    (he : l.entry? incoming.hash = some e) (hhash : e.hash = incoming.hash)
    (habsorbs : e.Absorbs incoming) (hfrom : incoming.info.fromMe = false) :
    ∃ l', addEntry chain now incoming l = (.ok (), l') ∧
      l'.markDirty = (l.indexNotes e.notes).markDirty := by
  let merged := l.withMerged e.markDirty l.store
  have entry (hash : Hash256) : merged.entry? hash =
      if hash = incoming.hash then some e.markDirty else l.entry? hash := by
    rw [entry?_withMerged, ← hhash]
    rfl
  have added : addEntry chain now incoming l = (.ok (), merged.indexNotes e.notes) := by
    have indexed : merged.indexEntry incoming.hash = merged.indexNotes e.notes :=
      indexEntry_of_entry (e := e.markDirty) ((entry incoming.hash).trans (if_pos rfl))
    rw [← indexed]
    unfold addEntry
    dsimp only
    rw [he]
    dsimp only
    rw [habsorbs.merge_eq hfrom, e.differs_self]
    rfl
  refine ⟨_, added, markDirty_withEntries (l.indexNotes e.notes) fun hash => ?_⟩
  show (merged.entry? hash).map Entry.markDirty = (l.entry? hash).map Entry.markDirty
  rw [entry hash]
  split
  · next heq => rw [heq, he]; rfl
  · rfl

section
variable {r : Record} {block : Option Block}

/-- Whether a record that is seen is offered depends on whether it concerns the wallet. -/
theorem addIfRelevant_ofRecord (keys : KeyView) (chain : ChainView) (now : Int64) (r : Record)
    (block : Option Block) (l : Ledger) :
    addIfRelevant keys chain now (Entry.ofRecord r) block true l =
      match concerns keys l r (r.findNotes keys) with
      | .error e => (.error (.error e), l)
      | .ok false => (.ok false, l)
      | .ok true => (addEntry chain now ((Entry.ofRecord r).offered keys block) >>= fun _ =>
          (pure true : LedgerOp Bool)) l := by
  have got : (get : LedgerOp Ledger) l = (.ok l, l) := rfl
  unfold addIfRelevant
  rw [bind_of_ok got, Bool.not_true, Bool.and_false, if_neg Bool.false_ne_true]
  cases hc : concerns keys l r (r.findNotes keys) with
  | error e => exact bind_of_error (ask_of_error hc)
  | ok relevant =>
    refine (bind_of_ok (ask_of_ok hc)).trans ?_
    cases relevant with
    | false => rfl
    | true =>
      unfold Entry.offered
      cases ((Entry.ofRecord r).record.findNotes keys).isEmpty <;> cases block <;> rfl

/-- What becomes of it depends on that too. -/
theorem sync_eq (keys : KeyView) (chain : ChainView) (now : Int64) (r : Record)
    (block : Option Block) (l : Ledger) : sync keys chain now r block l =
      match concerns keys l r (r.findNotes keys) with
      | .error e => (.error (.error e), l)
      | .ok false => (.ok (), l)
      | .ok true => (addEntry chain now ((Entry.ofRecord r).offered keys block) >>= fun _ =>
          LedgerOp.change (·.markAffectedDirty r)) l := by
  have relevant := addIfRelevant_ofRecord keys chain now r block l
  unfold sync
  cases hc : concerns keys l r (r.findNotes keys) with
  | error e =>
    rw [hc] at relevant
    exact bind_of_error relevant
  | ok concerned =>
    rw [hc] at relevant
    cases concerned with
    | false => exact bind_of_ok relevant
    | true =>
      dsimp only at relevant ⊢
      cases ha : addEntry chain now ((Entry.ofRecord r).offered keys block) l with
      | mk outcome l' =>
        cases outcome with
        | error failure =>
          rw [bind_of_error ha] at relevant ⊢
          exact bind_of_error relevant
        | ok =>
          rw [bind_of_ok ha] at relevant ⊢
          exact bind_of_ok relevant

/-- The store refuses an entry for its record, whatever else is in it. -/
theorem writeEntry_error_congr {store : Store} {hash hash' : Hash256} {e e' : Entry}
    {error : StoreError} (hrecord : e'.record = e.record)
    (h : store.writeEntry hash e = .error error) : store.writeEntry hash' e' = .error error := by
  have encoded (e : Entry) : e.encode? = none ↔ e.record.encode? = none := by
    simp [Entry.encode?]
  unfold Store.writeEntry Store.allow at h ⊢
  by_cases hrefused : store.refused = some .entry
  · rw [if_pos hrefused] at h ⊢
    exact h
  · rw [if_neg hrefused] at h ⊢
    cases he : e.encode? with
    | some bytes =>
      rw [he] at h
      cases h
    | none =>
      rw [he] at h
      rw [(encoded e').2 (by rw [hrecord]; exact (encoded e).1 he)]
      exact h

/-- So the clock and the chain do not matter for an entry that the store refuses. -/
theorem addEntry_error_congr {incoming : Entry} {failure : Failure}
    (h : addEntry chain now incoming l = (.error failure, l')) :
    addEntry chain' now' incoming l = (.error failure, l') := by
  unfold addEntry at h ⊢
  dsimp only at h ⊢
  cases he : l.entry? incoming.hash with
  | some stored =>
    rw [he] at h
    exact h
  | none =>
    rw [he] at h
    dsimp only at h ⊢
    unfold putEntry at h ⊢
    rw [if_pos rfl] at h ⊢
    cases hw : l.store.writeEntry (incoming.received chain now l.nextOrder).markDirty.hash
        (incoming.received chain now l.nextOrder).markDirty with
    | ok _ =>
      rw [hw] at h
      cases h
    | error error =>
      have refused : l.store.writeEntry (incoming.received chain' now' l.nextOrder).markDirty.hash
          (incoming.received chain' now' l.nextOrder).markDirty = .error error :=
        writeEntry_error_congr (e := (incoming.received chain now l.nextOrder).markDirty) rfl hw
      rw [hw] at h
      rw [refused]
      exact h

/-- An entry that is refused leaves the ledger as it was. -/
theorem eq_of_addEntry_error {incoming : Entry} {failure : Failure}
    (h : addEntry chain now incoming l = (.error failure, l')) : l' = l := by
  rcases addEntry_outcomes chain now incoming l with
    ⟨e, ha, -⟩ | ⟨-, -, store, -, ha⟩ | ⟨stored, store, -, -, ha⟩ <;> rw [h] at ha
  · exact congrArg Prod.snd ha
  · cases ha
  · cases ha

/-- To take in a record that is absorbed changes nothing but memoized amounts and the index, in
which the notes are indexed again. -/
theorem sync_of_absorbs {e : Entry} (he : l.entry? r.hash = some e) (hhash : e.hash = r.hash)
    (habsorbs : e.Absorbs ((Entry.ofRecord r).offered keys block)) :
    ∃ l', sync keys chain now r block l = (.ok (), l') ∧
      l'.markDirty = (l.indexNotes e.notes).markDirty := by
  obtain ⟨l', added, same⟩ := addEntry_of_absorbs chain now
    ((Entry.ofRecord r).offered keys block) he hhash habsorbs rfl
  refine ⟨l'.markAffectedDirty r, ?_, (markDirty_markAffectedDirty l' r).trans same⟩
  rw [sync_eq, concerns_of_entry he]
  exact bind_of_ok added

/-- A record that has just been taken in is absorbed, and its notes are indexed. -/
theorem sync_of_added (chain' : ChainView) (now' : Int64)
    (hkeyed : ∀ {hash e}, l.entry? hash = some e → e.hash = hash)
    (ha : addEntry chain now ((Entry.ofRecord r).offered keys block) l = (.ok (), l')) :
    ∃ l'', sync keys chain' now' r block (l'.markAffectedDirty r) = (.ok (), l'') ∧
      l''.markDirty = (l'.markAffectedDirty r).markDirty := by
  obtain ⟨l₀, added, rfl⟩ := added_of_addEntry hkeyed ha
  have part := added.entries (f := Entry.absorbingPart) (fun _ _ => rfl) (fun _ _ => rfl) r.hash
  rw [Entry.hash_offered, Entry.hash_ofRecord, if_pos rfl, ← (agree_indexEntry r.hash).entries,
    ← (agree_markAffectedDirty (fun _ _ => rfl) r).entries] at part
  obtain ⟨e, he, hpart⟩ := Option.map_eq_some_iff.1 part
  have hnotes : e.notes = (l.entryWith ((Entry.ofRecord r).offered keys block)).notes :=
    congrArg (·.2.2) hpart
  have hhash : e.hash = r.hash := by
    have hrecord : e.record = (l.entryWith ((Entry.ofRecord r).offered keys block)).record :=
      congrArg Prod.fst hpart
    rw [Entry.hash, hrecord]
    exact hash_entryWith hkeyed _
  have index := (takenIn_of_addEntry hkeyed ha).noteIndex.symm.trans
    (onlyEntries_markAffectedDirty _ r).noteIndex.symm
  obtain ⟨l'', answer, same⟩ := sync_of_absorbs he hhash ((absorbs_entryWith l _).congr hpart)
  refine ⟨l'', answer, same.trans ?_⟩
  exact congrArg markDirty (indexNotes_of_noteIndex (hnotes ▸ index.symm))

/-- The same record with the same block, once more, is answered alike and changes nothing but
memoized amounts. -/
theorem sync_again (hkeyed : ∀ {hash e}, l.entry? hash = some e → e.hash = hash) :
    let once := sync keys chain now r block l
    (sync keys chain' now' r block once.2).1 = once.1 ∧
      (sync keys chain' now' r block once.2).2.markDirty = once.2.markDirty := by
  intro once
  have heq : once = _ := sync_eq keys chain now r block l
  cases hc : concerns keys l r (r.findNotes keys) with
  | error e =>
    rw [hc] at heq
    rw [heq, sync_eq, hc]
    exact ⟨rfl, rfl⟩
  | ok concerned =>
    rw [hc] at heq
    cases concerned with
    | false =>
      rw [heq, sync_eq, hc]
      exact ⟨rfl, rfl⟩
    | true =>
      dsimp only at heq
      cases ha : addEntry chain now ((Entry.ofRecord r).offered keys block) l with
      | mk outcome l₁ =>
        cases outcome with
        | error failure =>
          obtain rfl : l₁ = l := eq_of_addEntry_error ha
          rw [bind_of_error ha] at heq
          rw [heq, sync_eq, hc]
          dsimp only
          rw [bind_of_error (addEntry_error_congr ha)]
          exact ⟨rfl, rfl⟩
        | ok =>
          have heq : once = (.ok (), l₁.markAffectedDirty r) := heq.trans (bind_of_ok ha)
          obtain ⟨l', answer, same⟩ := sync_of_added chain' now' hkeyed ha
          rw [heq, answer]
          exact ⟨rfl, same⟩

/-- A record that is held is seen again, unconfirmed. If the keys find the notes in it that are
stored, nothing changes but memoized amounts and the index, in which they are indexed again. -/
theorem sync_held {e : Entry} (he : l.entry? r.hash = some e) (hhash : e.hash = r.hash)
    (hnotes : (r.findNotes keys).sameNotes e.notes = true) :
    ∃ l', sync keys chain now r none l = (.ok (), l') ∧
      l'.markDirty = (l.indexNotes e.notes).markDirty := by
  refine sync_of_absorbs he hhash ⟨?_, fun _ _ => ?_⟩
  · rw [Entry.link_offered_none, MerkleLink.merge_unlinked]
  · rw [Entry.notes_offered_ofRecord]
    exact NoteMap.merge_eq_self (.inr (identities_eq_of_sameNotes hnotes))

/-- If no two notes are held with one nullifier, to index the notes of an entry again puts back what
the index has lost of them and nothing else. So it changes something exactly if a note is lost. -/
theorem IndexHeld.putBack (hi : IndexHeld l) (hapart : NotesApart l)
    (hplaces : ForNotes (fun _ _ _ => True) l) {hash : Hash256} {e : Entry}
    (he : l.entry? hash = some e) (same : l'.markDirty = (l.indexNotes e.notes).markDirty) :
    (∀ n location, l'.noteWithNullifier? n = some location ↔
      l.noteWithNullifier? n = some location ∨ e.notes.nullifierAt? location = some n) ∧
    (l'.markDirty = l.markDirty ↔ ∀ location n, e.notes.nullifierAt? location = some n →
      l.noteWithNullifier? n = some location) := by
  have index : l'.noteIndex = (l.indexNotes e.notes).noteIndex := noteIndex_of_markDirty_eq same
  have put : ∀ n location, l'.noteWithNullifier? n = some location ↔
      l.noteWithNullifier? n = some location ∨ e.notes.nullifierAt? location = some n := by
    intro n location
    rw [← hi.indexNotes_iff hapart he hplaces]
    unfold noteWithNullifier?
    rw [index]
  refine ⟨put, fun h location n hn => ?_, fun hall => ?_⟩
  · have found := (put n location).2 (.inr hn)
    unfold noteWithNullifier? at found ⊢
    rwa [← noteIndex_of_markDirty_eq h]
  · rw [same, indexNotes_of_found hall]

end

/-! ## Runs -/

section
variable {known : Record → Prop} {settings : Settings} {store : Store}
  (hunique : ∀ r r', known r → known r' → r.hash = r'.hash → r = r')
include hunique

/-- Repeated notifications are harmless, on runs with fixed keys and known records only, of which no
two have one hash. The same record with the same block, once more, is answered alike and changes
nothing but memoized amounts, whatever the chain and the clock are then.

A record that is held may be seen again unconfirmed. If the keys find the notes in it that are
stored, as they do if it is the record held, that changes nothing but memoized amounts and the
index. If no two notes are held with one nullifier, it puts back what the index has lost of the
record's notes and nothing else, so it changes the index exactly if a note is lost. None is if no
two notes were held with one nullifier after any operation. -/
theorem repeats_harmless {steps : List (Surroundings × Operation)}
    (hsteps : ∀ step ∈ steps, step.1.keys = keys ∧ step.2.ShowsOnly known step.1) :
    let l := (empty settings store).after steps
    (∀ r block chain now chain' now',
      let once := sync keys chain now r block l
      let twice := sync keys chain' now' r block once.2
      twice.1 = once.1 ∧ twice.2.markDirty = once.2.markDirty) ∧
    (∀ r e chain now, l.entry? r.hash = some e → (r.findNotes keys).sameNotes e.notes = true →
      ∃ l', sync keys chain now r none l = (.ok (), l') ∧
        l'.markDirty = { l with noteIndex := l'.noteIndex }.markDirty ∧
        (NotesApart l →
          (∀ n location, l'.noteWithNullifier? n = some location ↔
            l.noteWithNullifier? n = some location ∨ e.notes.nullifierAt? location = some n) ∧
          (l'.markDirty = l.markDirty ↔ ∀ location n, e.notes.nullifierAt? location = some n →
            l.noteWithNullifier? n = some location)) ∧
        ((∀ done, done <+: steps → NotesApart ((empty settings store).after done)) →
          l'.markDirty = l.markDirty)) ∧
    ∀ r e, known r → l.entry? r.hash = some e → e.record = r ∧
      (r.findNotes keys).sameNotes e.notes = true := by
  intro l
  have ⟨hfound, hindex⟩ : NotesAsFound known keys l ∧ IndexHeld l := found_after hunique hsteps
  refine ⟨fun r block chain now chain' now' => sync_again hfound.keyed,
    fun r e chain now he hnotes => ?_, fun r e hr he => ?_⟩
  · obtain ⟨l', answer, same⟩ : ∃ l', sync keys chain now r none l = (.ok (), l') ∧
        l'.markDirty = (l.indexNotes e.notes).markDirty := sync_held he (hfound.keyed he) hnotes
    refine ⟨l', answer, ?_, fun hapart => hindex.putBack hapart hfound.places he same,
      fun hapart => ?_⟩
    · rw [same, noteIndex_of_markDirty_eq same]
      rfl
    -- With notes apart all along, the index has lost nothing, so nothing is put back.
    · have hrun := runOf_after hunique hsteps hapart
      have apart := hapart steps (List.prefix_refl _)
      refine (hindex.putBack apart hfound.places he same).2.2 fun location n hn => ?_
      exact hrun.noteIndexed.found (hfound.places.nullifierAt?_eq_some he hn).2
  · obtain ⟨hknown, hhash, hnotes⟩ := hfound.entry he
    obtain rfl := hunique _ _ hknown hr hhash
    exact ⟨rfl, NoteMap.sameNotes_of_identities_eq hnotes.symm⟩

end

/-! ## A note that is announced and confirmed -/

/-- What is true of the records of all blocks is true of what a source of these blocks shows. -/
theorem showsKnown_ofBlocks {known : Record → Prop} {blocks : List Block}
    (h : ∀ block ∈ blocks, ∀ r ∈ block.records, known r) :
    ShowsKnown known (ChainSource.ofBlocks blocks) := by
  intro height index block hblock
  simp only [ChainSource.ofBlocks] at hblock
  split at hblock
  · cases hblock
  · obtain ⟨b, hb, heq⟩ := Option.map_eq_some_iff.1 hblock
    obtain rfl : b = block := congrArg Prod.snd heq
    exact h b (List.mem_of_getElem? hb)

/-- The keys of the example, and a chain with its block. -/
def confirmedSurroundings : Surroundings :=
  ⟨Follower.exampleSurroundings.keys, ChainSource.ofBlocks [exampleBlock], 0⟩

/-- The transaction with the note. -/
def noteRecord : Record := .transaction (Follower.transparentWith 0x11 0x12)

/-- It is announced, and then the chain is scanned. -/
def announcedThenScanned : List (Surroundings × Operation) :=
  [(confirmedSurroundings, .sync noteRecord none),
    (confirmedSurroundings, .rescan ⟨0, true, fun _ => false⟩)]

/-- Announced once more, the transaction stays in its block and the note keeps its witnesses. -/
theorem repeats_harmless_confirmed :
    let l := (empty Settings.default Store.empty).after announcedThenScanned
    (∃ e d, l.entry? noteRecord.hash = some e ∧ e.link.block = exampleBlock.hash ∧
      e.notes.get? Follower.exampleNote = some d ∧ d.witnesses ≠ []) ∧
    ∃ l', sync confirmedSurroundings.keys confirmedSurroundings.chain.toChainView 0 noteRecord none
      l = (.ok (), l') ∧ l'.markDirty = l.markDirty := by
  intro l
  have apart : ∀ done ∈ announcedThenScanned.inits,
      ∀ p ∈ ((empty Settings.default Store.empty).after done).recordedNullifiers,
      ∀ q ∈ ((empty Settings.default Store.empty).after done).recordedNullifiers,
        p.2 = q.2 → p.1 = q.1 := by
    decide +kernel
  have computed : (l.entry? noteRecord.hash).any (fun e => e.link.block == exampleBlock.hash &&
      (e.notes.get? Follower.exampleNote).any (!·.witnesses.isEmpty)) = true := by
    decide +kernel
  have shown : ∀ step ∈ announcedThenScanned, step.1.keys = confirmedSurroundings.keys ∧
      step.2.ShowsOnly (· = noteRecord) step.1 := by
    have chain : ShowsKnown (· = noteRecord) confirmedSurroundings.chain :=
      showsKnown_ofBlocks fun block hblock r hr => by
        obtain rfl := List.mem_singleton.1 hblock
        exact List.mem_singleton.1 hr
    exact List.forall_mem_cons.2 ⟨⟨rfl, rfl⟩, List.forall_mem_singleton.2 ⟨rfl, chain⟩⟩
  have unique : ∀ r r', r = noteRecord → r' = noteRecord → r.hash = r'.hash → r = r' :=
    fun _ _ hr hr' _ => hr.trans hr'.symm
  obtain ⟨-, unconfirmed, same⟩ := @repeats_harmless confirmedSurroundings.keys (· = noteRecord)
    Settings.default Store.empty unique announcedThenScanned shown
  obtain ⟨e, he, confirmed⟩ := (Option.any_eq_true _ _).1 computed
  obtain ⟨hblock, noted⟩ := Bool.and_eq_true_iff.1 confirmed
  obtain ⟨d, hd, witnessed⟩ := (Option.any_eq_true _ _).1 noted
  refine ⟨⟨e, d, he, eq_of_beq hblock, hd, by simpa using witnessed⟩, ?_⟩
  obtain ⟨l', answer, -, -, unchanged⟩ :=
    unconfirmed noteRecord e _ _ he (same noteRecord e rfl he).2
  exact ⟨l', answer, unchanged fun done hdone =>
    notesApart_of_recorded (apart done ((List.mem_inits _ _).2 hdone))⟩

/-! ## A note that is lost -/

/-- Another transaction with the same notes. -/
def sameNotesRecord : Record := .transaction
  { TxBody.blank with
    lockTime := 1
    joinSplits := [{ JoinSplit.blank false with
      commitments := (Bytes.filled 32 0x11, Bytes.filled 32 0x12) }] }.freeze

/-- Both are announced, and then the second one is erased. -/
def sharedThenErased : List (Surroundings × Operation) :=
  [(confirmedSurroundings, .sync noteRecord none),
    (confirmedSurroundings, .sync sameNotesRecord none),
    (confirmedSurroundings, .erase sameNotesRecord.hash)]

/-- No two notes are held with one nullifier then. But the index has found the note of the first
transaction only until the second was announced, and finds none now. Announced once more, the
transaction changes the index, in which its note is put back. -/
theorem lost_note_put_back :
    let l := (empty Settings.default Store.empty).after sharedThenErased
    (∀ step ∈ sharedThenErased, step.1.keys = confirmedSurroundings.keys ∧
      step.2.ShowsOnly (fun r => r = noteRecord ∨ r = sameNotesRecord) step.1) ∧
    noteRecord.hash ≠ sameNotesRecord.hash ∧ NotesApart l ∧
    ∃ e l', l.entry? noteRecord.hash = some e ∧
      (noteRecord.findNotes confirmedSurroundings.keys).sameNotes e.notes = true ∧
      sync confirmedSurroundings.keys confirmedSurroundings.chain.toChainView 0 noteRecord none l =
        (.ok (), l') ∧
      l.noteWithNullifier? exampleNullifier = none ∧
      l'.noteWithNullifier? exampleNullifier = some Follower.exampleNote ∧
      l'.markDirty ≠ l.markDirty := by
  intro l
  have shown : ∀ step ∈ sharedThenErased, step.1.keys = confirmedSurroundings.keys ∧
      step.2.ShowsOnly (fun r => r = noteRecord ∨ r = sameNotesRecord) step.1 :=
    List.forall_mem_cons.2 ⟨⟨rfl, .inl rfl⟩, List.forall_mem_cons.2 ⟨⟨rfl, .inr rfl⟩,
      List.forall_mem_singleton.2 ⟨rfl, trivial⟩⟩⟩
  have computed : noteRecord.hash ≠ sameNotesRecord.hash ∧
      l.recordedNullifiers = [(Follower.exampleNote, exampleNullifier)] ∧
      (l.entry? noteRecord.hash).any (fun e => e.hash == noteRecord.hash &&
        (noteRecord.findNotes confirmedSurroundings.keys).sameNotes e.notes) = true ∧
      l.noteWithNullifier? exampleNullifier = none ∧
      (sync confirmedSurroundings.keys confirmedSurroundings.chain.toChainView 0 noteRecord none
        l).2.noteWithNullifier? exampleNullifier = some Follower.exampleNote := by
    decide +kernel
  obtain ⟨differ, one, held, lost, put⟩ := computed
  obtain ⟨e, he, same⟩ := (Option.any_eq_true _ _).1 held
  obtain ⟨hhash, hnotes⟩ := Bool.and_eq_true_iff.1 same
  obtain ⟨l', answer, -⟩ : ∃ l', sync confirmedSurroundings.keys
      confirmedSurroundings.chain.toChainView 0 noteRecord none l = (.ok (), l') ∧
        l'.markDirty = (l.indexNotes e.notes).markDirty := sync_held he (eq_of_beq hhash) hnotes
  rw [answer] at put
  refine ⟨shown, differ, notesApart_of_one one, e, l', he, hnotes, answer, lost, put, fun h => ?_⟩
  unfold noteWithNullifier? at put lost
  rw [noteIndex_of_markDirty_eq h, lost] at put
  cases put

end Ledger
end ShieldedLedger
