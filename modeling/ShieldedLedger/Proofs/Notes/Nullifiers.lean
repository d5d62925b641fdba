import ShieldedLedger.Proofs.Notes.Index

/-!
# How long a nullifier is known

The nullifier of a note is recorded when the note is found with the spending keys unlocked, or
derived later on. It stays recorded until the note is erased, with one exception: when a record with
the note's hash is taken in again, what the keys find then takes the place of what was known
(`RunOf.nullifierAt?_of_takesIn`). With the spending keys locked that is no nullifier, so a note
that is known to be spent is listed as unspent again, although its spender is held and live
(`nullifier_forgotten_example`).
-/

namespace ShieldedLedger

/-- The operation is about this record, and takes it in. -/
def Operation.TakesIn (s : Surroundings) (l : Ledger) (r : Record) : Operation → Prop
  | .sync r' block =>
    r' = r ∧ (Ledger.sync s.keys s.chain.toChainView s.now r' block l).1 = .ok ()
  | .addIfRelevant incoming block update => incoming = Entry.ofRecord r ∧
    (Ledger.addIfRelevant s.keys s.chain.toChainView s.now incoming block update l).1 = .ok true
  | _ => False

namespace Ledger

variable {l l' : Ledger} {known : Record → Prop} {always : Ledger → Prop} {settings : Settings}
  {store : Store} {location : NoteLocation} {n : Hash256}

/-! ## Certificates -/

/-- No note is held in an entry of a certificate. -/
def NotesOfTransactions (l : Ledger) : Prop :=
  ∀ hash e cert, l.entry? hash = some e → e.record = .certificate cert →
    ∀ location, e.notes.nullifierAt? location = none

/-- That certificates have no notes is about records and what their notes are. -/
theorem NotesOfTransactions.of_identities (h : ∀ hash p, (l'.entry? hash).map Entry.identities =
    some p → ∀ cert, p.1 = .certificate cert → ∀ location,
      (p.2.get? location).bind (·.2) = none) : NotesOfTransactions l' := by
  intro hash e cert he hcert location
  rw [NoteMap.nullifierAt?_eq]
  exact h hash e.identities (by rw [he]; rfl) cert hcert location

/-- A certificate's entry has no nullifier at any place. -/
theorem NotesOfTransactions.identities (hl : NotesOfTransactions l) {hash : Hash256}
    {p : Record × SortedMap NoteLocation (PaymentAddress × Option Hash256)}
    (hp : (l.entry? hash).map Entry.identities = some p) {cert : Certificate}
    (hcert : p.1 = .certificate cert) (location : NoteLocation) :
    (p.2.get? location).bind (·.2) = none := by
  obtain ⟨e, he, rfl⟩ := Option.map_eq_some_iff.1 hp
  have := hl hash e cert he hcert location
  rwa [NoteMap.nullifierAt?_eq] at this

/-- A certificate is taken in without notes, and so it stays. -/
theorem NotesOfTransactions.takenIn (hl : NotesOfTransactions l) {keys : KeyView} {r : Record}
    {block : Option Block} (h : TakenIn ((Entry.ofRecord r).offered keys block) l l') :
    NotesOfTransactions l' := by
  refine .of_identities fun hash p hp cert hcert location => ?_
  rw [h.entries] at hp
  split at hp
  · obtain rfl := Option.some.inj hp
    show ((NoteMap.identities _).get? location).bind (·.2) = none
    rw [← NoteMap.nullifierAt?_eq]
    cases hs : l.entry? ((Entry.ofRecord r).offered keys block).hash with
    | none =>
      rw [entryWith_of_none hs] at hcert ⊢
      obtain rfl : r = .certificate cert := hcert
      rfl
    | some stored =>
      rw [entryWith_of_some hs] at hcert ⊢
      have hstored : stored.record = .certificate cert := hcert
      have kept := hl _ stored cert hs hstored location
      unfold Entry.merge
      dsimp only
      rwa [hstored]
  · exact hl.identities hp hcert location

/-- After every run, only transactions have notes. -/
theorem RunOf.notesOfTransactions (hl : RunOf known always settings store l) :
    NotesOfTransactions l := by
  induction hl with
  | start => exact fun _ _ _ he => (nomatch he)
  | @step l s op hl hop _ ih =>
    have hhash : ∀ {hash e}, l.entry? hash = some e → e.hash = hash :=
      fun he => (hl.holding_places.entries _ _ he).1
    rcases step_cases hhash s hop with same | ⟨hash, rfl⟩ | rfl | ⟨r, block, -, taken⟩
    · exact .of_identities fun hash p hp _ hcert => ih.identities (by rwa [← same.entries]) hcert
    · exact fun hash' e cert he => ih hash' e cert (entry?_of_erase he)
    · intro hash e' cert he' hcert location
      replace he' : Ledger.entry? (l.deriveNullifiers s.keys) hash = some e' := he'
      rw [entry?_deriveNullifiers] at he'
      obtain ⟨e, he, rfl⟩ := Option.map_eq_some_iff.1 he'
      rw [record_derivedEntry] at hcert
      rw [derivedEntry_of_certificate hcert]
      exact ih hash e cert he hcert location
    · exact ih.takenIn taken

/-! ## What one step does -/

/-- The keys find notes in the record that has the note's hash, but not this note with this
nullifier. -/
def Misread (keys : KeyView) (r : Record) (location : NoteLocation) (n : Hash256) : Prop :=
  r.hash = location.hash ∧ (r.findNotes keys).isEmpty = false ∧
    (r.findNotes keys).nullifierAt? location ≠ some n

section
variable {keys : KeyView} {r : Record} {block : Option Block}

/-- Of a note of the record that is taken in, the nullifier is the one found anew, unless the keys
find no notes at all. -/
theorem TakenIn.nullifierAt?_of_found (hl : NotesOfTransactions l)
    (h : TakenIn ((Entry.ofRecord r).offered keys block) l l')
    (hn : l.nullifierAt? location = some n) (hhash : r.hash = location.hash)
    (hfound : (r.findNotes keys).isEmpty = false) :
    l'.nullifierAt? location = (r.findNotes keys).nullifierAt? location := by
  obtain ⟨stored, hs, hstored⟩ := exists_entry_of_nullifierAt? hn
  have here : l.entry? ((Entry.ofRecord r).offered keys block).hash = some stored := by
    rw [← hs, ← hhash]
    rfl
  obtain ⟨tx, hrecord⟩ : ∃ tx, stored.record = .transaction tx := by
    cases hrecord : stored.record with
    | transaction tx => exact ⟨tx, rfl⟩
    | certificate cert =>
      rw [hl _ stored cert hs hrecord location] at hstored
      cases hstored
  rw [h.nullifierAt?, Entry.hash_offered, Entry.hash_ofRecord, if_pos hhash.symm,
    entryWith_of_some here]
  unfold Entry.merge
  rw [hrecord, Entry.notes_offered_ofRecord, NoteMap.nullifierAt?_eq, identities_merge, hfound,
    if_neg Bool.false_ne_true, ← NoteMap.nullifierAt?_eq]

/-- It stays as it is unless the keys misread the record. -/
theorem TakenIn.nullifierAt?_of_not_misread (hl : NotesOfTransactions l)
    (h : TakenIn ((Entry.ofRecord r).offered keys block) l l')
    (hn : l.nullifierAt? location = some n) (hread : ¬ Misread keys r location n) :
    l'.nullifierAt? location = some n := by
  by_cases hhash : r.hash = location.hash
  · cases hfound : (r.findNotes keys).isEmpty with
    | false =>
      rw [h.nullifierAt?_of_found hl hn hhash hfound]
      exact Decidable.byContradiction fun hne => hread ⟨hhash, hfound, hne⟩
    | true =>
      obtain ⟨stored, hs, hstored⟩ := exists_entry_of_nullifierAt? hn
      have here : l.entry? ((Entry.ofRecord r).offered keys block).hash = some stored := by
        rw [← hs, ← hhash]
        rfl
      have kept : (stored.merge ((Entry.ofRecord r).offered keys block)).notes = stored.notes := by
        unfold Entry.merge NoteMap.merge
        rw [Entry.notes_offered_ofRecord, hfound, Bool.true_or, if_pos rfl]
        cases stored.record <;> rfl
      rw [h.nullifierAt?, Entry.hash_offered, Entry.hash_ofRecord, if_pos hhash.symm,
        entryWith_of_some here, kept, hstored]
  · rw [h.nullifierAt?, Entry.hash_offered, Entry.hash_ofRecord, if_neg fun h => hhash h.symm, hn]

end

section
variable (hl : RunOf known always settings store l) (hn : l.nullifierAt? location = some n)
include hl hn

/-- A step leaves a nullifier known, unless it erases the note or takes in a record that the keys
misread. -/
theorem RunOf.nullifierAt?_step (s : Surroundings) {op : Operation} (hop : op.IsStep known)
    (herase : op ≠ .erase location.hash)
    (hread : ∀ r, op.TakesIn s l r → ¬ Misread s.keys r location n) :
    Ledger.nullifierAt? (op.apply s l) location = some n := by
  have hhash : ∀ {hash e}, l.entry? hash = some e → e.hash = hash :=
    fun he => (hl.holding_places.entries _ _ he).1
  have same : SameNotes l (op.apply s l) →
      Ledger.nullifierAt? (op.apply s l) location = some n := fun h => by rw [h.nullifierAt?, hn]
  rcases hop.cases with hquiet | ⟨hash, rfl⟩ | rfl | ⟨r, -, ⟨block, rfl⟩ | ⟨block, update, rfl⟩⟩
  · exact same (sameNotes_apply s hquiet l)
  · show Ledger.nullifierAt? (l.erase hash).2 location = _
    rw [nullifierAt?_erase, if_neg fun h => herase (congrArg Operation.erase h.symm), hn]
  · exact nullifierAt?_deriveNullifiers hn s.keys
  · rcases sync_cases hhash with h | ⟨hok, h⟩
    · exact same (.of_eq h)
    · exact h.nullifierAt?_of_not_misread hl.notesOfTransactions hn (hread r ⟨rfl, hok⟩)
  · rcases addIfRelevant_cases hhash (Entry.ofRecord r) update with ⟨-, h⟩ | ⟨hok, h⟩
    · exact same (.of_eq h)
    · exact h.nullifierAt?_of_not_misread hl.notesOfTransactions hn (hread r ⟨rfl, hok⟩)

/-- When a record with the note's hash is taken in and the keys find notes in it, then the nullifier
is the one found anew, or unknown if none is. -/
theorem RunOf.nullifierAt?_of_takesIn (s : Surroundings) {op : Operation} {r : Record}
    (hr : op.TakesIn s l r) (hhash : r.hash = location.hash)
    (hfound : (r.findNotes s.keys).isEmpty = false) :
    Ledger.nullifierAt? (op.apply s l) location = (r.findNotes s.keys).nullifierAt? location := by
  have keyed : ∀ {hash e}, l.entry? hash = some e → e.hash = hash :=
    fun he => (hl.holding_places.entries _ _ he).1
  obtain ⟨stored, hs, -⟩ := exists_entry_of_nullifierAt? hn
  rw [← hhash] at hs
  cases op with
  | sync r' block =>
    obtain ⟨rfl, hok⟩ := hr
    exact (takenIn_sync keyed hs hok).nullifierAt?_of_found hl.notesOfTransactions hn hhash hfound
  | addIfRelevant incoming block update =>
    obtain ⟨rfl, hok⟩ := hr
    rcases addIfRelevant_cases keyed (Entry.ofRecord r) update with ⟨hnot, -⟩ | ⟨-, h⟩
    · exact absurd hok hnot
    · exact h.nullifierAt?_of_found hl.notesOfTransactions hn hhash hfound
  | _ => exact absurd hr id

/-- So does a rescan in which the keys misread no record. -/
theorem RunOf.nullifierAt?_rescan (s : Surroundings) (request : ScanRequest)
    (hknown : ShowsKnown known s.chain)
    (hread : ∀ height index block, s.chain.blockAt? height = some (index, block) →
      ∀ r ∈ block.records, ¬ Misread s.keys r location n) :
    Ledger.nullifierAt? ((Operation.rescan request).apply s l) location = some n := by
  have kept : Keeps (fun l' => RunOf known (fun _ => True) settings store l' ∧
      l'.nullifierAt? location = some n)
      (Ledger.rescan s.keys s.chain.toChainView s.now s.chain request) := by
    refine keeps_rescan_of_blocks (fun height index block hblock r hr l' ⟨hl', hn'⟩ => ?_)
      (fun height index block tree _ l' ⟨hl', hn'⟩ => ?_)
    · have hop : (Operation.addIfRelevant (Entry.ofRecord r) (some block) request.update).IsStep
          known := ⟨r, hknown _ _ _ hblock r hr, rfl⟩
      refine ⟨hl'.step s _ hop trivial, hl'.nullifierAt?_step hn' s hop nofun ?_⟩
      rintro r' ⟨heq, -⟩
      obtain rfl : r = r' := congrArg Entry.record heq
      exact hread _ _ _ hblock r hr
    · have hop : (Operation.chainTip index block tree true).IsStep known := trivial
      exact ⟨hl'.step s _ hop trivial, hl'.nullifierAt?_step hn' s hop nofun fun _ h => absurd h id⟩
  exact (kept l ⟨hl.weaken, hn⟩).2

/-- What becomes of a nullifier that is known. A step that does not erase the note leaves it known,
unless the step takes in a record with the note's hash in which the keys find notes, but not this
one with this nullifier; then it is what the keys find, and unknown if they are locked. A rescan
leaves it known if the keys misread no record of the chain. And as long as it is known and a spender
of the note is not conflicted, the note is left out of listings of unspent notes. -/
theorem nullifier_forgotten_iff :
    (∀ (s : Surroundings) (op : Operation), op.IsStep known → op ≠ .erase location.hash →
      (Ledger.nullifierAt? (op.apply s l) location ≠ some n ↔
        ∃ r, op.TakesIn s l r ∧ Misread s.keys r location n)) ∧
    (∀ (s : Surroundings) (op : Operation) r, op.TakesIn s l r → Misread s.keys r location n →
      Ledger.nullifierAt? (op.apply s l) location =
        (r.findNotes s.keys).nullifierAt? location) ∧
    (∀ s request, ShowsKnown known s.chain →
      (∀ height index block, s.chain.blockAt? height = some (index, block) →
        ∀ r ∈ block.records, ¬ Misread s.keys r location n) →
      Ledger.nullifierAt? ((Operation.rescan request).apply s l) location = some n) ∧
    ∀ chain b x, l.entry? b = some x → .nullifier n ∈ x.spendKeys → 0 ≤ l.depthOf chain x →
      ∀ keys (q : NoteQuery), q.ignoreSpent = true → ∀ found ∈ l.decryptedNotes keys chain q,
        found.location ≠ location := by
  have found : ∀ (s : Surroundings) (op : Operation) r, op.TakesIn s l r →
      Misread s.keys r location n → Ledger.nullifierAt? (op.apply s l) location =
        (r.findNotes s.keys).nullifierAt? location :=
    fun s op r hr hread => hl.nullifierAt?_of_takesIn hn s hr hread.1 hread.2.1
  refine ⟨fun s op hop herase => ⟨fun hne => ?_, ?_⟩, found,
    fun s request => hl.nullifierAt?_rescan hn s request, fun chain b x hx hk hd keys q hq => ?_⟩
  · refine Classical.byContradiction fun hnone => hne ?_
    exact hl.nullifierAt?_step hn s hop herase fun r hr hread => hnone ⟨r, hr, hread⟩
  · rintro ⟨r, hr, hread⟩
    rw [found s op r hr hread]
    exact hread.2.2
  · exact hl.spendIndexed.not_mem_decryptedNotes
      (hl.holding_places.notes.imp fun _ _ _ _ => trivial) hx hk hd hn hq keys

end

/-! ## A spent note that is listed again -/

/-- The keys of the example, locked. -/
def lockedSurroundings : Surroundings where
  keys := { Simulation.Keys.fresh.addNote (Bytes.filled 32 0x11) default 5 with
    available := false }.view
  chain := Simulation.Chain.empty.source
  now := 0

/-- The transaction with the note is announced. -/
def announceNote : Operation := .sync (.transaction (Follower.transparentWith 0x11 0x12)) none

/-- The ledger with the note and its spender, once the transaction with the note is announced again
while the keys are locked. -/
def announcedLocked : Ledger := announceNote.apply lockedSurroundings (afterNote [exampleSpend])

/-- A note is spent, and then its transaction is announced again while the keys are locked. The
nullifier is unknown then, and the note is listed as unspent, although the spender is held and
live. -/
theorem nullifier_forgotten_example :
    RunOf (fun _ => True) NotesApart Settings.default Store.empty (afterNote [exampleSpend]) ∧
      (afterNote [exampleSpend]).nullifierAt? Follower.exampleNote = some exampleNullifier ∧
      announcedLocked.nullifierAt? Follower.exampleNote = none ∧
      (announcedLocked.entry? exampleSpend.hash).any (fun x =>
        decide (.nullifier exampleNullifier ∈ x.spendKeys) &&
          decide (0 ≤ announcedLocked.depthOf lockedSurroundings.chain.toChainView x)) = true ∧
      ∃ found ∈ announcedLocked.decryptedNotes lockedSurroundings.keys
        lockedSurroundings.chain.toChainView ⟨none, 0, true, false⟩,
        found.location = Follower.exampleNote := by
  obtain ⟨-, ⟨one, recorded, -⟩, -⟩ := afterNote_computed
  have run : RunOf (fun _ => True) NotesApart Settings.default Store.empty
      (afterNote [exampleSpend]) := runOf_afterNote (notesApart_of_one one)
  have computed : ((sync lockedSurroundings.keys lockedSurroundings.chain.toChainView
        lockedSurroundings.now (.transaction (Follower.transparentWith 0x11 0x12)) none
        (afterNote [exampleSpend])).1.toOption.any (· == ()) = true ∧
      (findNotes lockedSurroundings.keys (Follower.transparentWith 0x11 0x12)).isEmpty = false ∧
      (findNotes lockedSurroundings.keys (Follower.transparentWith 0x11 0x12)).nullifierAt?
        Follower.exampleNote = none) ∧
      (announcedLocked.entry? exampleSpend.hash).any (fun x =>
        decide (.nullifier exampleNullifier ∈ x.spendKeys) &&
          decide (0 ≤ announcedLocked.depthOf lockedSurroundings.chain.toChainView x)) = true ∧
      ∃ found ∈ announcedLocked.decryptedNotes lockedSurroundings.keys
        lockedSurroundings.chain.toChainView ⟨none, 0, true, false⟩,
        found.location = Follower.exampleNote := by
    decide +kernel
  obtain ⟨⟨accepted, found, unknown⟩, live, listed⟩ := computed
  obtain ⟨⟨⟩, accepted, -⟩ := exists_ok_of_any accepted
  obtain ⟨-, reread, -⟩ := nullifier_forgotten_iff run recorded
  refine ⟨run, recorded, ?_, live, listed⟩
  exact (reread lockedSurroundings announceNote _ ⟨rfl, accepted⟩
    ⟨rfl, found, fun h => nomatch unknown.symm.trans h⟩).trans unknown

end Ledger
end ShieldedLedger
