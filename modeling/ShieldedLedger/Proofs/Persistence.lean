import ShieldedLedger.Proofs.Selection.Listing
import ShieldedLedger.Proofs.TakingIn

/-!
# What is stored

An entry is written before the ledger takes it in, and removed with it. So a store that was empty
in the beginning holds an encoding for each entry of the ledger and for nothing else (`Mirrored`),
whichever writes it has refused. The encodings need not be those of the entries as they are now:
most operations write nothing. `Ledger.setBestChain` writes all of them, and it is enough for it
that every entry has an encoding, which is what an entry that has been stored once keeps
(`Ledger.store_mirrors`).
-/

namespace ShieldedLedger

/-! ## Writing entries -/

/-- The bytes encode the record, with whatever was known about it when they were written. -/
def Encodes (bytes : List UInt8) (r : Record) : Prop :=
  ∃ e : Entry, e.record = r ∧ e.encode? = some bytes

/-- Whether an entry has an encoding depends on its record. -/
theorem Encodes.encode?_ne_none {bytes : List UInt8} {e : Entry} (h : Encodes bytes e.record) :
    e.encode? ≠ none := by
  obtain ⟨e', hr, he'⟩ := h
  obtain ⟨record, hrecord, -⟩ := Option.map_eq_some_iff.1 he'
  rw [hr] at hrecord
  simp [Entry.encode?, hrecord]

namespace Store

variable {s s' : Store} {contents : StoreContents}

/-- Without a batch, a change takes effect at once. -/
theorem update_of_closed (h : s.staged = none) (f : StoreContents → StoreContents) :
    s.update f = { s with committed := f s.committed } := by
  obtain ⟨committed, staged, refused⟩ := s
  obtain rfl : staged = none := h
  rfl

/-- While a batch is open an update stays in the batch. -/
theorem update_of_staged (h : s.staged = some contents) (f : StoreContents → StoreContents) :
    s.update f = { s with staged := some (f contents) } := by
  unfold update
  rw [h]

/-- What an entry that is written does to the contents. -/
theorem writeEntry_eq_ok_iff {hash : Hash256} {e : Entry} : s.writeEntry hash e = .ok s' ↔
    s.refused ≠ some .entry ∧ ∃ bytes, e.encode? = some bytes ∧
      s' = s.update fun c => { c with entries := c.entries.insert hash bytes } := by
  unfold writeEntry allow
  split
  · next h =>
    refine ⟨fun h' => ?_, fun h' => absurd h h'.1⟩
    cases h'
  next h =>
  cases he : e.encode? with
  | none =>
    constructor
    · intro h'
      cases h'
    · rintro ⟨-, _, h', -⟩
      cases h'
  | some bytes =>
    refine ⟨fun h' => ⟨h, bytes, rfl, (Except.ok.inj h').symm⟩, ?_⟩
    rintro ⟨-, bytes', h', rfl⟩
    rw [Option.some.inj h']
    rfl

/-- The size is written unless the store refuses writes of this kind. -/
theorem writeCacheSize_eq (s : Store) (size : Nat) : s.writeCacheSize size =
    if s.refused = some .cacheSize then .error (.writeFailed .cacheSize)
    else .ok (s.update fun c => { c with cacheSize := some size }) := by
  unfold writeCacheSize allow
  split <;> rfl

/-- The best block is written unless the store refuses writes of this kind. -/
theorem writeBestBlock_eq (s : Store) (locator : BlockLocator) : s.writeBestBlock locator =
    if s.refused = some .bestBlock then .error (.writeFailed .bestBlock)
    else .ok (s.update fun c => { c with bestBlock := some locator }) := by
  unfold writeBestBlock allow
  split <;> rfl

/-- Every entry of the list is found under its hash as it is encoded, and under the other hashes is
found what was there. -/
structure Overwrites (items : List (Hash256 × Entry)) (old new : SortedMap Hash256 (List UInt8)) :
    Prop where
  listed : ∀ item ∈ items, ∃ bytes, item.2.encode? = some bytes ∧ new.get? item.1 = some bytes
  others : ∀ hash, hash ∉ items.map (·.1) → new.get? hash = old.get? hash

/-- Entries with different hashes that have encodings are all written into the open batch, unless
entries are refused. -/
theorem writeEntries_outcomes : ∀ (items : List (Hash256 × Entry)) {s : Store}
    {contents : StoreContents}, s.staged = some contents → (items.map (·.1)).Nodup →
    (∀ item ∈ items, item.2.encode? ≠ none) →
    (∃ e, s.writeEntries items = .error e ∧ s.refused = some .entry) ∨
    ∃ entries, s.writeEntries items = .ok { s with staged := some { contents with entries } } ∧
      Overwrites items contents.entries entries
  | [], s, contents, hs, _, _ => by
    refine .inr ⟨contents.entries, ?_, ⟨fun _ h => absurd h List.not_mem_nil, fun _ _ => rfl⟩⟩
    rw [← hs]
    rfl
  | item :: rest, s, contents, hs, hnodup, henc => by
    obtain ⟨hfirst, hrest⟩ := List.nodup_cons.1 hnodup
    obtain ⟨bytes, hbytes⟩ := Option.ne_none_iff_exists'.1 (henc item List.mem_cons_self)
    have cons : s.writeEntries (item :: rest) =
        s.writeEntry item.1 item.2 >>= fun s => s.writeEntries rest := List.foldlM_cons
    by_cases hr : s.refused = some .entry
    · refine .inl ⟨.writeFailed .entry, ?_, hr⟩
      rw [cons]
      unfold writeEntry allow
      rw [if_pos hr]
      rfl
    · have staged := update_of_staged hs fun c =>
        { c with entries := c.entries.insert item.1 bytes }
      have written := writeEntry_eq_ok_iff.2 ⟨hr, bytes, hbytes, staged.symm⟩
      rw [cons, written]
      rcases writeEntries_outcomes (s := { s with staged := some { contents with
          entries := contents.entries.insert item.1 bytes } }) rest rfl hrest
        (fun i hi => henc i (List.mem_cons_of_mem _ hi)) with ⟨e, -, hr'⟩ | ⟨entries, h, overwrites⟩
      · exact absurd hr' hr
      refine .inr ⟨entries, h, fun i hi => ?_, fun hash hnot => ?_⟩
      · rcases List.mem_cons.1 hi with rfl | hi
        · refine ⟨bytes, hbytes, (overwrites.others _ hfirst).trans ?_⟩
          exact SortedMap.get?_insert_self _ _ _
        · exact overwrites.listed i hi
      · rw [List.map_cons, List.mem_cons, not_or] at hnot
        rw [overwrites.others hash hnot.2]
        exact (SortedMap.get?_insert_eq_ite _ _ _ _).trans (if_neg hnot.1)

end Store

namespace Ledger

variable {l l' : Ledger} {keys : KeyView} {chain : ChainView} {now : Int64}

/-! ## The store beside the ledger -/

/-- The store is no entry, so it is as it was. -/
theorem OnlyEntries.store (h : OnlyEntries l l') : l'.store = l.store := by
  obtain ⟨_, _, rfl⟩ := h
  rfl

/-- No batch is open, and the store holds an encoding for each entry, under the hash of its record,
and for nothing else. -/
structure Mirrored (l : Ledger) : Prop where
  closed : l.store.staged = none
  entries : ∀ hash, Option.Rel (fun (r : Record) bytes => r.hash = hash ∧ Encodes bytes r)
    ((l.entry? hash).map Entry.record) (l.store.committed.entries.get? hash)

namespace Mirrored

/-- What is found under the hash of an entry. -/
theorem held (hl : Mirrored l) {hash : Hash256} {e : Entry} (he : l.entry? hash = some e) :
    e.hash = hash ∧ ∃ bytes, l.store.committed.entries.get? hash = some bytes ∧
      Encodes bytes e.record := by
  have h := hl.entries hash
  rw [he, Option.map_some] at h
  cases hb : l.store.committed.entries.get? hash with
  | none => rw [hb] at h; cases h
  | some bytes =>
    rw [hb] at h
    cases h with
    | some h => exact ⟨h.1, bytes, rfl, h.2⟩

/-- Only the records matter and the store. -/
theorem of_same (hl : Mirrored l) (hstore : l'.store = l.store)
    (hrecords : ∀ hash, (l'.entry? hash).map Entry.record = (l.entry? hash).map Entry.record) :
    Mirrored l' where
  closed := hstore ▸ hl.closed
  entries hash := by
    rw [hrecords, hstore]
    exact hl.entries hash

/-- What the store refuses does not matter. -/
theorem refuse (hl : Mirrored l) (refused : Option StoreWrite) :
    Mirrored { l with store := { l.store with refused } } := ⟨hl.closed, hl.entries⟩

end Mirrored

/-- An empty ledger over an empty store is mirrored, whatever the store refuses. -/
theorem mirrored_empty (settings : Settings) (refused : Option StoreWrite) :
    Mirrored (empty settings { Store.empty with refused }) := ⟨rfl, fun _ => .none⟩

/-! ## Operations -/

/-- Asking for an amount leaves the store alone. -/
theorem keeps_store_amount {store : Store} {kind : AmountKind} {hash : Hash256}
    {filter : OwnershipFilter} :
    Keeps (fun l => l.store = store) (amount keys chain kind hash filter) := by
  intro l hl
  unfold amount
  split
  · exact hl
  split
  · exact hl
  split <;> exact hl

/-- Asking for the change writes nothing. -/
theorem keeps_store_change {store : Store} {hash : Hash256} :
    Keeps (fun l => l.store = store) (change keys hash) := by
  intro l hl
  unfold change
  split
  · exact hl
  split
  · exact hl
  split <;> exact hl

/-- An entry that is put into the ledger is written first, or an encoding of its record is there. -/
theorem Mirrored.putEntry (hl : Mirrored l) {e : Entry} {changed : Bool}
    (h : l.putEntry e changed = .ok l')
    (hsame : changed = false → ∃ stored, l.entry? e.hash = some stored ∧ stored.record = e.record) :
    Mirrored l' := by
  unfold Ledger.putEntry at h
  have found : ∀ {store : Store} hash,
      Ledger.entry? { l with entries := l.entries.insert e.hash e, store } hash =
        if hash = e.hash then some e else l.entry? hash :=
    fun hash => SortedMap.get?_insert_eq_ite _ _ _ _
  cases changed with
  | false =>
    obtain rfl := Except.ok.inj h
    obtain ⟨stored, hs, hr⟩ := hsame rfl
    refine hl.of_same rfl fun hash => ?_
    rw [found]
    split
    · next hh => rw [hh, hs, Option.map_some, Option.map_some, hr]
    · rfl
  | true =>
    rw [if_pos rfl] at h
    cases hw : l.store.writeEntry e.hash e with
    | error error =>
      rw [hw] at h
      cases h
    | ok store =>
      rw [hw] at h
      obtain rfl := Except.ok.inj h
      obtain ⟨-, bytes, hbytes, rfl⟩ := Store.writeEntry_eq_ok_iff.1 hw
      rw [Store.update_of_closed hl.closed]
      refine ⟨hl.closed, fun hash => ?_⟩
      rw [found]
      show Option.Rel _ _ ((l.store.committed.entries.insert e.hash bytes).get? hash)
      rw [SortedMap.get?_insert_eq_ite]
      split
      · next hh => exact .some ⟨hh.symm, e, rfl, hbytes⟩
      · exact hl.entries hash

/-- Adding an entry keeps the store in step. -/
theorem keeps_mirrored_addEntry (incoming : Entry) :
    Keeps Mirrored (addEntry chain now incoming) := by
  intro l hl
  have indexed : ∀ {l : Ledger} hash, Mirrored l → Mirrored (l.indexEntry hash) :=
    fun {l} hash hl => hl.of_same (by unfold indexEntry; split <;> rfl)
      (agree_indexEntry hash).entries
  unfold addEntry
  dsimp only
  cases he : l.entry? incoming.hash with
  | none =>
    dsimp only
    cases hp : l.putEntry (incoming.received chain now l.nextOrder).markDirty true with
    | error e => exact hl
    | ok l₁ =>
      have put : Mirrored l₁ := hl.putEntry hp nofun
      have next : Mirrored { l₁ with nextOrder := l₁.nextOrder + 1 } := ⟨put.closed, put.entries⟩
      refine indexed _ (next.of_same ?_ fun hash => ?_)
      · exact (onlyEntries_registerSpends _ _).store
      · exact entries_registerSpends (fun _ _ => rfl) (fun _ _ => rfl) _ _ _
  | some stored =>
    dsimp only
    cases hp : l.putEntry (stored.merge incoming).markDirty
      ((stored.merge incoming).differs stored) with
    | error e => exact hl
    | ok l₁ =>
      have key : (stored.merge incoming).markDirty.hash = incoming.hash := (hl.held he).1
      exact indexed _ (hl.putEntry hp fun _ => ⟨stored, key ▸ he, rfl⟩)

/-- An entry is removed from both. -/
theorem Mirrored.erase (hl : Mirrored l) (hash : Hash256) : Mirrored (l.erase hash).2 := by
  cases he : l.entry? hash with
  | none =>
    have unchanged : (l.erase hash).2 = l := by
      unfold Ledger.erase
      rw [he]
    rwa [unchanged]
  | some e =>
    have store : (l.erase hash).2.store = { l.store with committed :=
        { l.store.committed with entries := l.store.committed.entries.erase hash } } := by
      obtain ⟨_, withdrawn⟩ :=
        foldl_withdrawSpend hash e.spendKeys { l with entries := l.entries.erase hash }
      unfold Ledger.erase
      rw [he]
      dsimp only
      rw [withdrawn]
      show l.store.update _ = _
      rw [Store.update_of_closed hl.closed]
    refine ⟨by rw [store]; exact hl.closed, fun hash' => ?_⟩
    rw [store, entry?_erase]
    show Option.Rel _ _ ((l.store.committed.entries.erase hash).get? hash')
    rw [SortedMap.get?_erase_eq_ite]
    split
    · exact .none
    · exact hl.entries hash'

/-- What takes in no record and removes none leaves the store alone, except for storing the ledger
and for changes of the store itself. -/
theorem store_quiet (s : Surroundings) {op : Operation} (hop : op.IsQuiet ∨ op = .deriveNullifiers)
    (hbest : ∀ locator, op ≠ .setBestChain locator) (hset : ∀ store, op ≠ .setStore store)
    (l : Ledger) : Ledger.store (op.apply s l) = l.store := by
  cases op with
  | registerSpends hash => exact (onlyEntries_registerSpends l hash).store
  | deriveNullifiers =>
    have indexed : ∀ (entries : List Entry) (l : Ledger),
        (entries.foldl (fun l e => l.indexNotes e.notes) l).store = l.store := by
      intro entries
      induction entries with
      | nil => exact fun _ => rfl
      | cons e rest ih => exact fun l => ih (l.indexNotes e.notes)
    exact indexed _ _
  | chainTip index block tree added =>
    have kept : Keeps (fun l' => l'.store = l.store)
        (tipOn tree (chainTip index block added)) :=
      keeps_tipOn (keeps_chainTip (I := fun l' => l'.store = l.store) (fun _ h => h)
        (fun _ _ h => h) (fun _ _ _ h => h) (fun _ h => h) fun _ h => h)
    exact kept l rfl
  | ask query =>
    have kept : Keeps (fun l' => l'.store = l.store) (query.ask s.keys s.chain.toChainView) :=
      keeps_query (fun _ _ _ => keeps_store_amount) (fun _ => keeps_store_change) query
    exact kept l rfl
  | planResend bestBlockTime delay =>
    show (l.planResend s.now bestBlockTime delay).2.store = _
    unfold planResend
    dsimp only
    split
    · rfl
    split <;> rfl
  | markAffectedDirty r => exact (onlyEntries_markAffectedDirty l r).store
  | clearWitnesses | lockCoin | unlockCoin | unlockAllCoins | markDirty => rfl
  | setBestChain locator => exact absurd rfl (hbest locator)
  | setStore store => exact absurd rfl (hset store)
  | sync | addIfRelevant | addEntry | rescan | erase =>
    exact absurd hop (by simp [Operation.IsQuiet])

/-! ## Storing the ledger -/

/-- Storing the ledger fails and changes nothing, which happens only if the store refuses something.
Or every entry is written as it is now, with the witness cache size and the best block, and nothing
else is left in the store. -/
theorem setBestChain_outcomes (hl : Mirrored l) (locator : BlockLocator) :
    (∃ e, setBestChain locator l = (.error (.error (.store e)), l) ∧ l.store.refused ≠ none) ∨
    ∃ entries, setBestChain locator l = (.ok (), { l with store := { l.store with
        committed := ⟨entries, some l.cacheSize, some locator⟩ } }) ∧
      ∀ hash, Option.Rel (fun (e : Entry) bytes => e.encode? = some bytes) (l.entry? hash)
        (entries.get? hash) := by
  have opened : l.store.openBatch = .ok { l.store with staged := some l.store.committed } := by
    unfold Store.openBatch
    rw [hl.closed]
  have found : ∀ item ∈ l.entries.toList, l.entry? item.1 = some item.2 :=
    fun item hitem => SortedMap.mem_toList_iff.1 hitem
  have encodable : ∀ item ∈ l.entries.toList, item.2.encode? ≠ none := by
    intro item hitem
    obtain ⟨-, _, -, encodes⟩ := hl.held (found item hitem)
    exact encodes.encode?_ne_none
  unfold setBestChain
  dsimp only
  rw [opened]
  rcases Store.writeEntries_outcomes (s := { l.store with staged := some l.store.committed })
    l.entries.toList rfl l.entries.nodup_keys encodable with ⟨e, h, hr⟩ | ⟨entries, h, overwrites⟩
  · have hr : l.store.refused = some .entry := hr
    simp only [bind, Except.bind, h]
    exact .inl ⟨e, rfl, by rw [hr]; exact nofun⟩
  simp only [bind, Except.bind, h, Store.writeCacheSize_eq]
  by_cases hsize : l.store.refused = some .cacheSize
  · simp only [if_pos hsize]
    exact .inl ⟨_, rfl, by rw [hsize]; exact nofun⟩
  simp only [if_neg hsize, Store.update, Store.writeBestBlock_eq]
  by_cases hbest : l.store.refused = some .bestBlock
  · simp only [if_pos hbest]
    exact .inl ⟨_, rfl, by rw [hbest]; exact nofun⟩
  simp only [if_neg hbest, Store.commit]
  refine .inr ⟨entries, by rw [hl.closed], fun hash => ?_⟩
  cases he : l.entry? hash with
  | some e =>
    obtain ⟨bytes, hbytes, hget⟩ := overwrites.listed (hash, e) (SortedMap.mem_toList_iff.2 he)
    rw [hget]
    exact .some hbytes
  | none =>
    -- Nothing is written for what is not held, and nothing was there for it before.
    have absent : hash ∉ l.entries.keys := by
      rw [SortedMap.mem_keys_iff]
      rintro ⟨e, h⟩
      exact nomatch he.symm.trans h
    have before := hl.entries hash
    rw [he, Option.map_none] at before
    rw [overwrites.others hash absent]
    cases hb : l.store.committed.entries.get? hash with
    | none => exact .none
    | some bytes => rw [hb] at before; cases before

/-- Storing the ledger keeps the store in step. -/
theorem Mirrored.setBestChain (hl : Mirrored l) (locator : BlockLocator) :
    Mirrored (setBestChain locator l).2 := by
  rcases setBestChain_outcomes hl locator with ⟨e, h, -⟩ | ⟨entries, h, written⟩ <;> rw [h]
  · exact hl
  · refine ⟨hl.closed, fun hash => ?_⟩
    have encoded := written hash
    show Option.Rel _ ((l.entry? hash).map Entry.record) (entries.get? hash)
    generalize he : l.entry? hash = entry at encoded
    generalize entries.get? hash = stored at encoded
    cases encoded with
    | none => exact .none
    | some hbytes => exact .some ⟨(hl.held he).1, _, rfl, hbytes⟩

/-! ## Runs -/

/-- Every operation keeps the store in step, but for a change of the store behind the ledger's
back. -/
theorem Mirrored.apply (hl : Mirrored l) (s : Surroundings) {op : Operation}
    (hset : ∀ store, op ≠ .setStore store) : Mirrored (op.apply s l) := by
  have quiet : op.IsQuiet ∨ op = .deriveNullifiers → (∀ locator, op ≠ .setBestChain locator) →
      Mirrored (op.apply s l) := fun hop hbest => by
    refine hl.of_same (store_quiet s hop hbest hset l) fun hash => ?_
    rcases hop with hop | rfl
    · exact keeps_of_agree_quiet (f := Entry.record)
        (I := fun l' => (l'.entry? hash).map Entry.record = (l.entry? hash).map Entry.record)
        (fun _ _ => rfl) (fun _ _ => rfl) (fun _ _ agree h => (agree.entries hash).trans h)
        (fun hash' l' h => (entries_registerSpends (fun _ _ => rfl) (fun _ _ => rfl) l' hash'
          hash).trans h) s hop l rfl
    · exact (agree_deriveNullifiers (f := Entry.record) (fun _ _ _ => rfl) s.keys).entries hash
  have dirty : ∀ r l, Mirrored l → Mirrored (l.markAffectedDirty r) := fun r l hl =>
    hl.of_same (onlyEntries_markAffectedDirty l r).store
      (agree_markAffectedDirty (f := Entry.record) (fun _ _ => rfl) r).entries
  cases op with
  | sync r block =>
    exact keeps_sync (fun _ _ _ => keeps_mirrored_addEntry _) (dirty r) l hl
  | addIfRelevant incoming block update =>
    exact keeps_addIfRelevant (fun _ _ _ => keeps_mirrored_addEntry _) l hl
  | addEntry incoming => exact keeps_mirrored_addEntry incoming l hl
  | rescan request =>
    refine keeps_rescan (fun incoming => keeps_mirrored_addEntry incoming) (fun index block => ?_)
      l hl
    exact keeps_chainTip (I := Mirrored)
      (fun _ h => h.of_same rfl (agree_openWitnesses (fun _ _ _ => rfl) _).entries)
      (fun _ leaf h => h.of_same rfl (agree_appendToNotes (fun _ _ _ => rfl) _ leaf).entries)
      (fun _ _ _ h => h.of_same rfl (agree_modifyNote (fun _ _ _ => rfl) _ _).entries)
      (fun _ h => h.of_same rfl (agree_mapNotes (fun _ _ _ => rfl) _).entries)
      fun _ h => h.of_same rfl (agree_dropWitnesses (fun _ _ _ => rfl) _).entries
  | erase hash => exact hl.erase hash
  | setBestChain locator => exact hl.setBestChain locator
  | deriveNullifiers => exact quiet (.inr rfl) nofun
  | setStore store => exact absurd rfl (hset store)
  | _ => exact quiet (.inl trivial) nofun

/-- What a run leads to over a store that was empty in the beginning and is told from time to time
which writes to refuse. -/
inductive StoredRun (settings : Settings) : Ledger → Prop
  /-- Ledger and store are empty. -/
  | start (refused : Option StoreWrite) :
    StoredRun settings (empty settings { Store.empty with refused })
  /-- Something is done with the ledger. -/
  | step {l : Ledger} (s : Surroundings) (op : Operation) : StoredRun settings l →
    (∀ store, op ≠ .setStore store) → StoredRun settings (op.apply s l)
  /-- Coins are listed. -/
  | list {l : Ledger} (s : Surroundings) (q : CoinQuery) : StoredRun settings l →
    StoredRun settings (availableCoins s.keys s.chain.toChainView q l).2
  /-- Coins are selected. -/
  | select {l : Ledger} {σ : Type} [RandomSource σ] (s : Surroundings) (target : Amount)
    (control : Option CoinControl) (source : σ) : StoredRun settings l →
    StoredRun settings (selectCoins s.keys s.chain.toChainView target control source l).2
  /-- The store begins to refuse other writes, or none. -/
  | refuse {l : Ledger} (refused : Option StoreWrite) : StoredRun settings l →
    StoredRun settings { l with store := { l.store with refused } }

/-- The store mirrors the ledger all along a run, by induction over its steps. -/
theorem StoredRun.mirrored {settings : Settings} (hl : StoredRun settings l) : Mirrored l := by
  have asked : ∀ {s : Surroundings} kind hash filter,
      Keeps Mirrored (amount s.keys s.chain.toChainView kind hash filter) :=
    fun {s} kind hash filter l hl => by
      have asked : ∀ store, Operation.ask (.entry kind hash filter) ≠ .setStore store := nofun
      exact hl.apply s asked
  induction hl with
  | start refused => exact mirrored_empty settings refused
  | step s op _ hset ih => exact ih.apply s hset
  | list s q _ ih => exact keeps_availableCoins asked q _ ih
  | select s target control source _ ih => exact keeps_selectCoins asked target control source _ ih
  | refuse refused _ ih => exact ih.refuse refused

/-- The store mirrors the ledger at all times. To store the ledger changes nothing about the ledger
itself; if it fails nothing about the store either, and else the store holds what every entry is
encoded as now, the witness cache size and the best block. It does not fail unless the store refuses
something. -/
theorem store_mirrors {settings : Settings} (hl : StoredRun settings l) :
    Mirrored l ∧ ∀ locator,
      (∃ store, (setBestChain locator l).2 = { l with store }) ∧
      (∀ failure, (setBestChain locator l).1 = .error failure → (setBestChain locator l).2 = l) ∧
      ((setBestChain locator l).1 = .ok () → ∃ entries,
        (setBestChain locator l).2.store =
          { l.store with committed := ⟨entries, some l.cacheSize, some locator⟩ } ∧
        ∀ hash, Option.Rel (fun (e : Entry) bytes => e.encode? = some bytes) (l.entry? hash)
          (entries.get? hash)) ∧
      (l.store.refused = none → (setBestChain locator l).1 = .ok ()) := by
  refine ⟨hl.mirrored, fun locator => ?_⟩
  rcases setBestChain_outcomes hl.mirrored locator with
    ⟨e, h, hr⟩ | ⟨entries, h, written⟩ <;> rw [h]
  · exact ⟨⟨l.store, rfl⟩, fun _ _ => rfl, nofun, fun hnone => absurd hnone hr⟩
  · exact ⟨⟨_, rfl⟩, nofun, fun _ => ⟨entries, rfl, written⟩, fun _ => rfl⟩

/-- A ledger that has seen a payment, and whose store refuses what is given. -/
def paid (refused : Option StoreWrite) : Ledger :=
  let l := (Operation.sync (.transaction payment) none).apply
    ⟨Simulation.Keys.fresh.view, Simulation.Chain.empty.source, 0⟩
    (empty Settings.default Store.empty)
  { l with store := { l.store with refused } }

/-- The example is a run: something is paid to us, and then the ledger is stored. -/
theorem storedRun_paid (refused : Option StoreWrite) :
    StoredRun Settings.default (paid refused) :=
  .refuse refused (.step _ _ (.start none) nofun)

/-- The payment is held. If the store takes no best block, storing the ledger fails and leaves
everything as it was; if it takes one, the witness cache size is stored too. -/
theorem store_mirrors_paid :
    let locator : BlockLocator := ⟨[]⟩
    (Ledger.entry? (paid none) payment.hash).isSome ∧ Mirrored (paid none) ∧
      (setBestChain locator (paid none)).2.store.committed.cacheSize = some 0 ∧
      (setBestChain locator (paid (some .bestBlock))).1.toOption = none ∧
      (setBestChain locator (paid (some .bestBlock))).2 = paid (some .bestBlock) := by
  intro locator
  have computed : (Ledger.entry? (paid none) payment.hash).isSome ∧
      (paid none).store.refused = none ∧ (paid none).cacheSize = 0 ∧
      (setBestChain locator (paid (some .bestBlock))).1.toOption = none := by decide +kernel
  obtain ⟨held, accepts, cacheSize, failed⟩ := computed
  obtain ⟨mirrored, stores⟩ := store_mirrors (storedRun_paid none)
  obtain ⟨-, -, stored, done⟩ := stores locator
  obtain ⟨entries, store, -⟩ := stored (done accepts)
  obtain ⟨-, refuses⟩ := store_mirrors (storedRun_paid (some .bestBlock))
  obtain ⟨-, unchanged, -, -⟩ := refuses locator
  refine ⟨held, mirrored, by rw [store, cacheSize], failed, ?_⟩
  cases h : (setBestChain locator (paid (some .bestBlock))).1 with
  | ok => rw [h] at failed; cases failed
  | error failure => exact unchanged failure h

end Ledger
end ShieldedLedger
