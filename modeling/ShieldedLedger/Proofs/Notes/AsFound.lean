import Mathlib.Data.List.Infix
import ShieldedLedger.Proofs.Notes.Index

/-!
# Notes as fixed keys find them

With keys that stay the same, and no two records with one hash, an entry holds the notes that the
keys find in its record, from the time it is taken in until it is erased (`NotesAsFound`). So the
index never finds a place for a nullifier but that of a note that is held with it (`IndexHeld`),
even while notes share nullifiers.

That the index finds every note takes more: no two notes are ever held with one nullifier. What a
rescan adds it keeps, so that this is true all the way of a rescan if it is true at its end
(`runOf_rescan`).
-/

namespace ShieldedLedger
namespace Ledger

variable {l l' : Ledger} {keys : KeyView} {known : Record → Prop} {settings : Settings}
  {store : Store}

/-- Every entry is of a known record, and its notes are those that the keys find in it. -/
def NotesAsFound (known : Record → Prop) (keys : KeyView) (l : Ledger) : Prop :=
  ∀ hash p, (l.entry? hash).map Entry.identities = some p →
    known p.1 ∧ p.1.hash = hash ∧ p.2 = (p.1.findNotes keys).identities

/-- The index finds nothing but notes that are held with the nullifier. -/
def IndexHeld (l : Ledger) : Prop :=
  ∀ n location, l.noteWithNullifier? n = some location → l.nullifierAt? location = some n

namespace NotesAsFound

/-- What is said of an entry, in terms of the entry. -/
theorem entry (hl : NotesAsFound known keys l) {hash : Hash256} {e : Entry}
    (he : l.entry? hash = some e) : known e.record ∧ e.record.hash = hash ∧
      e.notes.identities = (e.record.findNotes keys).identities :=
  hl hash e.identities (by rw [he]; rfl)

/-- Entries are held under the hashes of their records. -/
theorem keyed (hl : NotesAsFound known keys l) {hash : Hash256} {e : Entry}
    (he : l.entry? hash = some e) : e.hash = hash := (hl.entry he).2.1

/-- Notes are where the record of their entry has its commitments. -/
theorem places (hl : NotesAsFound known keys l) : ForNotes (fun _ _ _ => True) l := by
  intro hash e he location d hd
  obtain ⟨-, hhash, hnotes⟩ := hl.entry he
  have found : (e.record.findNotes keys).identities.get? location = some d.identity := by
    rw [← hnotes]
    unfold NoteMap.identities
    rw [SortedMap.get?_mapValues, hd]
    rfl
  unfold NoteMap.identities at found
  rw [SortedMap.get?_mapValues] at found
  obtain ⟨d', hd', -⟩ := Option.map_eq_some_iff.1 found
  obtain ⟨leaf, hleaf, rfl⟩ := exists_leaf_of_found hd'
  exact ⟨(Record.hash_of_mem_noteLeaves hleaf).trans hhash, trivial⟩

/-- Entries with the same records and notes hold what the keys find, too. -/
theorem of_sameNotes (hl : NotesAsFound known keys l) (h : SameNotes l l') :
    NotesAsFound known keys l' := by
  intro hash p hp
  rw [h.entries] at hp
  exact hl hash p hp

/-- So do the entries that are left when one is erased. -/
theorem erase (hl : NotesAsFound known keys l) (hash : Hash256) :
    NotesAsFound known keys (l.erase hash).2 := by
  intro hash' p hp
  obtain ⟨e, he, rfl⟩ := Option.map_eq_some_iff.1 hp
  exact hl.entry (entry?_of_erase he)

variable {s : Surroundings} {op : Operation}

/-- No entries go away but those erased. -/
theorem isSome_entry?_apply (hl : NotesAsFound known s.keys l) (hop : op.IsStep known)
    (herase : ∀ hash, op ≠ .erase hash) {hash : Hash256} (held : (l.entry? hash).isSome) :
    (Ledger.entry? (op.apply s l) hash).isSome := by
  rcases step_cases hl.keyed s hop with same | ⟨hash, rfl⟩ | rfl | ⟨r, block, -, taken⟩
  · rwa [same.isSome_entry?]
  · exact absurd rfl (herase hash)
  · show (Ledger.entry? (l.deriveNullifiers s.keys) hash).isSome
    rwa [entry?_deriveNullifiers, Option.isSome_map]
  · exact taken.isSome_entry? held

variable (hunique : ∀ r r', known r → known r' → r.hash = r'.hash → r = r')
include hunique

/-- A known record that is taken in holds what the keys find in it, whether it is new or merged. -/
theorem takenIn (hl : NotesAsFound known keys l) {r : Record} (hr : known r) {block : Option Block}
    (h : TakenIn ((Entry.ofRecord r).offered keys block) l l') : NotesAsFound known keys l' := by
  intro hash p hp
  rw [h.entries] at hp
  split at hp
  · next heq =>
    obtain rfl : hash = r.hash := heq
    obtain rfl := Option.some.inj hp
    cases hs : l.entry? r.hash with
    | none =>
      rw [entryWith_of_none hs]
      refine ⟨hr, rfl, ?_⟩
      show NoteMap.identities _ = _
      rw [Entry.notes_offered_ofRecord]
      rfl
    | some stored =>
      obtain ⟨hknown, hhash, hnotes⟩ := hl.entry hs
      have hrecord : stored.record = r := hunique _ _ hknown hr hhash
      rw [entryWith_of_some hs]
      refine ⟨hknown, hhash, ?_⟩
      show NoteMap.identities (stored.merge _).notes = (stored.record.findNotes keys).identities
      unfold Entry.merge
      cases hkind : stored.record with
      | certificate _ => rw [hkind] at hnotes; exact hnotes
      | transaction tx =>
        rw [Entry.notes_offered_ofRecord, identities_merge, hnotes, hrecord, ← hkind, hrecord]
        exact ite_self _
  · exact hl hash p hp

/-- Of all single steps only deriving nullifiers may change that. -/
theorem apply (hl : NotesAsFound known s.keys l) (hop : op.IsStep known)
    (hderive : op ≠ .deriveNullifiers) : NotesAsFound known s.keys (op.apply s l) := by
  rcases step_cases hl.keyed s hop with same | ⟨hash, rfl⟩ | rfl | ⟨r, block, hr, taken⟩
  · exact hl.of_sameNotes same
  · exact hl.erase hash
  · exact absurd rfl hderive
  · exact hl.takenIn hunique hr taken

/-- A note keeps its nullifier for as long as its entry is held. -/
theorem nullifierAt?_of_held (hl : NotesAsFound known keys l) (hl' : NotesAsFound known keys l')
    (hheld : ∀ hash, (l.entry? hash).isSome → (l'.entry? hash).isSome) {location : NoteLocation}
    {n : Hash256} (hn : l.nullifierAt? location = some n) : l'.nullifierAt? location = some n := by
  obtain ⟨e, he, hn⟩ := exists_entry_of_nullifierAt? hn
  obtain ⟨e', he'⟩ := Option.isSome_iff_exists.1 (hheld location.hash (by rw [he]; rfl))
  obtain ⟨hknown, hhash, hnotes⟩ := hl.entry he
  obtain ⟨hknown', hhash', hnotes'⟩ := hl'.entry he'
  have hrecord := hunique _ _ hknown' hknown (hhash'.trans hhash.symm)
  rwa [nullifierAt?_of_entry he', NoteMap.nullifierAt?_eq, hnotes', hrecord, ← hnotes,
    ← NoteMap.nullifierAt?_eq]

/-- Where more is held there are the same notes and more. So notes that are apart later were apart
before. -/
theorem notesApart (hl : NotesAsFound known keys l) (hl' : NotesAsFound known keys l')
    (hheld : ∀ hash, (l.entry? hash).isSome → (l'.entry? hash).isSome) (hapart : NotesApart l') :
    NotesApart l := fun a b n ha hb =>
  hapart a b n (hl.nullifierAt?_of_held hunique hl' hheld ha)
    (hl.nullifierAt?_of_held hunique hl' hheld hb)

end NotesAsFound

/-! ## The index -/

namespace IndexHeld

/-- Nothing that the index depends on has changed. -/
theorem of_sameNotes (hi : IndexHeld l) (h : SameNotes l l') : IndexHeld l' := by
  intro n location hfound
  have index : l'.noteWithNullifier? n = l.noteWithNullifier? n := congrArg (·.get? n) h.noteIndex
  rw [h.nullifierAt?]
  exact hi n location (index ▸ hfound)

/-- With an entry, all that the index finds of its notes is erased. -/
theorem erase (hi : IndexHeld l) (hash : Hash256) : IndexHeld (l.erase hash).2 := by
  intro n location hfound
  cases he : l.entry? hash with
  | none =>
    unfold Ledger.erase at hfound ⊢
    rw [he] at hfound ⊢
    exact hi n location hfound
  | some e =>
    unfold noteWithNullifier? at hfound
    rw [noteIndex_erase he, SortedMap.get?_filter_eq_some_iff, bne_iff_ne] at hfound
    rw [nullifierAt?_erase, if_neg hfound.2]
    exact hi n location hfound.1

variable (hunique : ∀ r r', known r → known r' → r.hash = r'.hash → r = r')
include hunique

/-- The index finds a note of the record that is taken in, or what it found before, which is still
held. -/
theorem takenIn (hi : IndexHeld l) (hl : NotesAsFound known keys l) {r : Record} (hr : known r)
    {block : Option Block} (h : TakenIn ((Entry.ofRecord r).offered keys block) l l') :
    IndexHeld l' := by
  have hl' := hl.takenIn hunique hr h
  intro n location hfound
  have renewed := renews_indexNotes l (l.entryWith ((Entry.ofRecord r).offered keys block)).notes n
  rw [← h.noteIndex] at renewed
  rcases renewed with ⟨place, hclaim, hplace⟩ | ⟨-, hkept⟩
  · obtain rfl := Option.some.inj (hplace.symm.trans hfound)
    rwa [h.nullifierAt?, if_pos (h.hash_eq hl'.places hclaim)]
  · refine hl.nullifierAt?_of_held hunique hl' (fun _ held => h.isSome_entry? held) ?_
    exact hi n location (hkept.symm.trans hfound)

/-- Of all single steps only deriving nullifiers may change that. -/
theorem apply {s : Surroundings} {op : Operation} (hi : IndexHeld l)
    (hl : NotesAsFound known s.keys l) (hop : op.IsStep known) (hderive : op ≠ .deriveNullifiers) :
    IndexHeld (op.apply s l) := by
  rcases step_cases hl.keyed s hop with same | ⟨hash, rfl⟩ | rfl | ⟨r, block, hr, taken⟩
  · exact hi.of_sameNotes same
  · exact hi.erase hash
  · exact absurd rfl hderive
  · exact hi.takenIn hunique hl hr taken

end IndexHeld

/-- To index the notes of an entry again puts back what the index has lost of them, and changes
nothing else of it, if no two notes are held with one nullifier. -/
theorem IndexHeld.indexNotes_iff (hi : IndexHeld l) (hapart : NotesApart l) {e : Entry}
    {hash : Hash256} (he : l.entry? hash = some e) (hplaces : ForNotes (fun _ _ _ => True) l)
    (n : Hash256) (location : NoteLocation) :
    (l.indexNotes e.notes).noteWithNullifier? n = some location ↔
      l.noteWithNullifier? n = some location ∨ e.notes.nullifierAt? location = some n := by
  have held : ∀ {place}, e.notes.nullifierAt? place = some n →
      l.nullifierAt? place = some n :=
    fun hn => (hplaces.nullifierAt?_eq_some he hn).2
  unfold noteWithNullifier?
  rcases renews_indexNotes l e.notes n with ⟨place, hclaim, hplace⟩ | ⟨hnone, hkept⟩
  · rw [hplace]
    constructor
    · intro h
      exact .inr (Option.some.inj h ▸ hclaim)
    · rintro (hfound | hclaim')
      · rw [hapart place location n (held hclaim) (hi n location hfound)]
      · rw [hapart place location n (held hclaim) (held hclaim')]
  · rw [hkept]
    exact ⟨.inl, fun h => h.resolve_right (hnone location)⟩

end Ledger

/-! ## Runs with rescans -/

/-- The operation takes in only known records, one at a time or from a chain that is scanned, and
derives no nullifiers. -/
def Operation.ShowsOnly (known : Record → Prop) (s : Surroundings) : Operation → Prop
  | .rescan _ => Ledger.ShowsKnown known s.chain
  | .deriveNullifiers => False
  | op => op.IsStep known

/-- Such an operation is a rescan of known records, or a single step that derives no nullifiers. -/
theorem Operation.ShowsOnly.cases {known : Record → Prop} {s : Surroundings} {op : Operation}
    (h : op.ShowsOnly known s) :
    (∃ request, op = .rescan request ∧ Ledger.ShowsKnown known s.chain) ∨
      op.IsStep known ∧ op ≠ .deriveNullifiers := by
  cases op with
  | rescan request => exact .inl ⟨request, rfl, h⟩
  | deriveNullifiers => exact absurd h id
  | _ => exact .inr ⟨h, nofun⟩

namespace Ledger

variable {l : Ledger} {keys : KeyView} {known : Record → Prop} {settings : Settings} {store : Store}

/-- What single steps keep that neither erase nor derive, a rescan keeps. -/
theorem rescan_of_steps {P : Ledger → Prop} {s : Surroundings}
    (hstep : ∀ op l, op.IsStep known → op ≠ .deriveNullifiers → (∀ hash, op ≠ .erase hash) →
      P l → P (Operation.apply s op l)) (hl : P l) {request : ScanRequest}
    (hknown : ShowsKnown known s.chain) : P ((Operation.rescan request).apply s l) := by
  have kept : Keeps P (Ledger.rescan s.keys s.chain.toChainView s.now s.chain request) := by
    refine keeps_rescan_of_blocks (fun height index block hblock r hr => ?_)
      (fun height index block tree _ => ?_)
    · exact fun l => hstep (.addIfRelevant (Entry.ofRecord r) (some block) request.update) l
        ⟨r, hknown _ _ _ hblock r hr, rfl⟩ nofun nofun
    · exact fun l => hstep (.chainTip index block tree true) l trivial nofun nofun
  exact kept l hl

section
variable (hunique : ∀ r r', known r → known r' → r.hash = r'.hash → r = r')
include hunique

/-- With fixed keys and known records only, notes are as found all along, and the index finds none
but those held. -/
theorem found_after {steps : List (Surroundings × Operation)}
    (hsteps : ∀ step ∈ steps, step.1.keys = keys ∧ step.2.ShowsOnly known step.1) :
    NotesAsFound known keys ((empty settings store).after steps) ∧
      IndexHeld ((empty settings store).after steps) := by
  induction steps using List.reverseRecOn with
  | nil => exact ⟨fun _ _ h => (nomatch h), fun _ _ h => (nomatch h)⟩
  | append_singleton steps step ih =>
    obtain ⟨s, op⟩ := step
    have ih := ih fun step hstep => hsteps step (List.mem_append_left _ hstep)
    obtain ⟨rfl, hop⟩ := hsteps (s, op) (List.mem_append_right _ (List.mem_singleton_self _))
    rw [after_concat]
    rcases hop.cases with ⟨request, rfl, hknown⟩ | ⟨hop, hderive⟩
    · refine rescan_of_steps (P := fun l => NotesAsFound known s.keys l ∧ IndexHeld l)
        (fun op l hop hderive _ hl => ?_) ih hknown
      exact ⟨hl.1.apply hunique hop hderive, hl.2.apply hunique hl.1 hop hderive⟩
    · exact ⟨ih.1.apply hunique hop hderive, ih.2.apply hunique ih.1 hop hderive⟩

/-- A run goes on with a rescan if notes are apart at its end. -/
theorem runOf_rescan (hrun : RunOf known NotesApart settings store l) {s : Surroundings}
    (hl : NotesAsFound known s.keys l) {request : ScanRequest} (hknown : ShowsKnown known s.chain)
    (hapart : NotesApart ((Operation.rescan request).apply s l)) :
    RunOf known NotesApart settings store ((Operation.rescan request).apply s l) := by
  -- The invariant of the walk: it has been a run so far if notes are apart now.
  refine (rescan_of_steps (P := fun l => NotesAsFound known s.keys l ∧
    (NotesApart l → RunOf known NotesApart settings store l))
    (fun op l hop hderive herase ⟨hl, hrun⟩ => ?_) ⟨hl, fun _ => hrun⟩ hknown).2 hapart
  have found := hl.apply hunique hop hderive
  refine ⟨found, fun h => (hrun ?_).step s op hop h⟩
  exact hl.notesApart hunique found (fun _ => hl.isSome_entry?_apply hop herase) h

/-- With notes apart after each operation they are so after each single step. -/
theorem runOf_after {steps : List (Surroundings × Operation)}
    (hsteps : ∀ step ∈ steps, step.1.keys = keys ∧ step.2.ShowsOnly known step.1)
    (hapart : ∀ done, done <+: steps → NotesApart ((empty settings store).after done)) :
    RunOf known NotesApart settings store ((empty settings store).after steps) := by
  induction steps using List.reverseRecOn with
  | nil => exact .start
  | append_singleton steps step ih =>
    obtain ⟨s, op⟩ := step
    have hbefore := fun step hstep => hsteps step (List.mem_append_left _ hstep)
    have hrun := ih hbefore fun done hdone => hapart done (hdone.trans (List.prefix_append ..))
    have apart := hapart _ (List.prefix_refl _)
    obtain ⟨rfl, hop⟩ := hsteps (s, op) (List.mem_append_right _ (List.mem_singleton_self _))
    rw [after_concat] at apart ⊢
    rcases hop.cases with ⟨request, rfl, hknown⟩ | ⟨hop, -⟩
    · exact runOf_rescan hunique hrun (found_after hunique hbefore).1 hknown apart
    · exact hrun.step s op hop apart

end

end Ledger
end ShieldedLedger
