import ShieldedLedger.Proofs.Agree
import ShieldedLedger.Proofs.Witnesses.History

/-!
# Witnesses under one chain update

`Ledger.Witnessed own known chain l` says of a ledger that every note's witnesses are those of the
last blocks of the chain (`NoteKept`), that no more witnesses are accounted for than the settings
allow, and that every entry is of a record in `known`.

Connecting the next block to such a ledger always succeeds as long as the tree has room for the
leaves of the block, and leaves such a ledger for the longer chain (`Witnessed.connectBlock`).
Disconnecting the tip succeeds unless no witness is accounted for any more, and leaves such a ledger
for the shorter chain (`Witnessed.disconnectBlock`). The walk over the leaves of a block carries the
invariant for the chain whose tip is as much of the block as has been appended
(`forM_appendBlockLeaf`).
-/

namespace ShieldedLedger
namespace Ledger

variable {l l' : Ledger}

/-! ## Statements about all notes -/

/-- Every note is in the entry that its location names, and satisfies `P`. -/
def ForNotes (P : Record → NoteLocation → NoteData → Prop) (l : Ledger) : Prop :=
  ∀ hash e, l.entry? hash = some e → ∀ location d, e.notes.get? location = some d →
    location.hash = hash ∧ P e.record location d

section
variable {P Q : Record → NoteLocation → NoteData → Prop}

/-- A statement about all notes may be weakened. -/
theorem ForNotes.imp (hl : ForNotes P l) (h : ∀ r location d, P r location d → Q r location d) :
    ForNotes Q l := by
  intro hash e he location d hd
  obtain ⟨hloc, hP⟩ := hl hash e he location d hd
  exact ⟨hloc, h _ _ _ hP⟩

/-- Statements about all notes are about the entries. -/
theorem ForNotes.of_entries (hl : ForNotes P l) (h : l'.entries = l.entries) : ForNotes P l' := by
  intro hash e he
  unfold entry? at he
  rw [h] at he
  exact hl hash e he

/-- What is true of all notes is true of each note that the ledger lists. -/
theorem ForNotes.mem (hl : ForNotes P l) {d : NoteData} (hd : d ∈ l.notes) :
    ∃ r location, P r location d := by
  obtain ⟨e, he, hd⟩ := List.mem_flatMap.1 hd
  obtain ⟨hash, he⟩ := SortedMap.mem_values_iff.1 he
  obtain ⟨location, hd⟩ := SortedMap.mem_values_iff.1 hd
  exact ⟨_, _, (hl hash e he location d hd).2⟩

/-- What is true of all notes is true of the note found at a location. -/
theorem ForNotes.note? (hl : ForNotes P l) {location : NoteLocation} {d : NoteData}
    (hd : l.note? location = some d) : ∃ r, P r location d := by
  obtain ⟨e, he, hd⟩ := Option.bind_eq_some_iff.1 hd
  exact ⟨_, (hl _ e he location d hd).2⟩

/-- A change of every note turns a statement into another one if it does so for each of them. -/
theorem ForNotes.mapNotes {f : NoteData → NoteData} (hl : ForNotes P l)
    (h : ∀ r location d, P r location d → Q r location (f d)) : ForNotes Q (l.mapNotes f) := by
  intro hash e' he' location d' hd'
  unfold Ledger.mapNotes at he'
  rw [entry?_mapEntries] at he'
  obtain ⟨e, he, rfl⟩ := Option.map_eq_some_iff.1 he'
  replace hd' : (e.notes.mapValues fun _ d => f d).get? location = some d' := hd'
  rw [SortedMap.get?_mapValues] at hd'
  obtain ⟨d, hd, rfl⟩ := Option.map_eq_some_iff.1 hd'
  obtain ⟨hloc, hP⟩ := hl hash e he location d hd
  exact ⟨hloc, h _ _ _ hP⟩

/-- A change of the note at a location keeps a statement about all notes if it keeps it for that
one. -/
theorem ForNotes.modifyNote {f : NoteData → NoteData} {location : NoteLocation} (hl : ForNotes P l)
    (h : ∀ e d, l.entry? location.hash = some e → P e.record location d →
      P e.record location (f d)) : ForNotes P (l.modifyNote location f) := by
  intro hash e' he' location' d' hd'
  unfold Ledger.modifyNote at he'
  rw [entry?_modifyEntry] at he'
  split at he'
  · next hh =>
    subst hh
    obtain ⟨e, he, rfl⟩ := Option.map_eq_some_iff.1 he'
    replace hd' : (e.notes.modify location f).get? location' = some d' := hd'
    rw [SortedMap.get?_modify_eq_ite] at hd'
    split at hd'
    · next hl' =>
      subst hl'
      obtain ⟨d, hd, rfl⟩ := Option.map_eq_some_iff.1 hd'
      obtain ⟨hloc, hP⟩ := hl _ e he _ d hd
      exact ⟨hloc, h e d he hP⟩
    · exact hl _ e he _ d' hd'
  · exact hl _ e' he' _ d' hd'

/-- If every note takes the leaf, appending it to the notes is appending it to each. -/
theorem appendToNotes_eq {height : Int} {leaf : Hash256}
    (hl : ForNotes (fun _ _ d => d.isBehind height = true ∧ (d.appendLeaf? leaf).isSome) l) :
    l.appendToNotes height leaf = (l.mapNotes fun d => (d.appendLeaf? leaf).getD d, true) := by
  unfold appendToNotes mapNotesAccum Ledger.mapNotes mapEntries
  rw [SortedMap.mapAccum_eq_mapValues (g := fun _ (e : Entry) =>
    { e with notes := e.notes.mapValues fun _ d => (d.appendLeaf? leaf).getD d })]
  intro ⟨hash, e⟩ he
  dsimp only
  rw [SortedMap.mapAccum_eq_mapValues (g := fun _ d => (d.appendLeaf? leaf).getD d)]
  intro ⟨location, d⟩ hd
  obtain ⟨-, hbehind, hsome⟩ :=
    hl hash e (SortedMap.mem_toList_iff.1 he) location d (SortedMap.mem_toList_iff.1 hd)
  obtain ⟨d', hd'⟩ := Option.isSome_iff_exists.1 hsome
  simp only [hbehind, hd', Bool.and_self, if_true, Option.getD_some]

end

/-! ## Appending a block -/

variable {own : Record → NoteLeaf → Prop} {chain : List (List NoteLeaf)}

/-- Every note's witnesses are those of the last blocks of the chain, and valid for `tip`. -/
abbrev NotesKept (own : Record → NoteLeaf → Prop) (chain : List (List NoteLeaf)) (tip : Int)
    (l : Ledger) : Prop :=
  ForNotes (fun r location d => NoteKept (own r) chain tip l.cacheSize location d) l

/-- If a record in the ledger has the hash that the location of the leaf names, the leaf is one of
the record's own. -/
def LeafOwned (own : Record → NoteLeaf → Prop) (l : Ledger) (leaf : NoteLeaf) : Prop :=
  ∀ e, l.entry? leaf.1.hash = some e → own e.record leaf

/-- Whether a leaf is owned depends on the records of the entries only. -/
theorem Agree.leafOwned (h : Agree Entry.record l l') {leaf : NoteLeaf}
    (hleaf : LeafOwned own l leaf) : LeafOwned own l' leaf := by
  intro e' he'
  obtain ⟨e, he, hr⟩ := h.entry he'
  rw [hr]
  exact hleaf e he

/-- The number of witnesses of the note at the location, if there is one. -/
def witnessesAt? (l : Ledger) (location : NoteLocation) : Option Nat :=
  (l.note? location).map (·.witnesses.length)

/-- The note found after a change of every note is the changed one. -/
theorem note?_mapNotes (l : Ledger) (f : NoteData → NoteData) (location : NoteLocation) :
    (l.mapNotes f).note? location = (l.note? location).map f := by
  unfold note? Ledger.mapNotes
  rw [entry?_mapEntries]
  cases l.entry? location.hash with
  | none => rfl
  | some e => exact SortedMap.get?_mapValues _ _ _

/-- Only the note at the location is found changed. -/
theorem note?_modifyNote (l : Ledger) (f : NoteData → NoteData)
    (location location' : NoteLocation) :
    (l.modifyNote location f).note? location' =
      if location' = location then (l.note? location').map f else l.note? location' := by
  unfold note? Ledger.modifyNote
  rw [entry?_modifyEntry]
  cases he : l.entry? location'.hash with
  | none => split <;> simp
  | some e =>
    by_cases hh : location'.hash = location.hash
    · rw [if_pos hh]
      exact SortedMap.get?_modify_eq_ite _ _ _ _
    · rw [if_neg hh, if_neg fun hl => hh (congrArg NoteLocation.hash hl)]

/-- The number of witnesses at a location changes as it does for the note there. -/
theorem witnessesAt?_mapNotes {location : NoteLocation} {f : NoteData → NoteData} {g : Nat → Nat}
    (hf : ∀ d, l.note? location = some d → (f d).witnesses.length = g d.witnesses.length) :
    Ledger.witnessesAt? (l.mapNotes f) location = (l.witnessesAt? location).map g := by
  unfold Ledger.witnessesAt?
  rw [note?_mapNotes]
  cases hd : l.note? location with
  | none => rfl
  | some d => exact congrArg some (hf d hd)

/-- Every note takes the next leaf of the tree. -/
theorem NotesKept.appendToNotes {block : List NoteLeaf} {tip : Int} {leaf : NoteLeaf}
    {tree tree' : NoteTree} (hl : NotesKept own (block :: chain) tip l) (htip : -1 ≤ tip)
    (ht : TreeOf tree (leavesOf (block :: chain)))
    (ha : tree.append? sproutHash leaf.2 = some tree') :
    l.appendToNotes (tip + 1) leaf.2 = (l.mapNotes fun d => (d.appendLeaf? leaf.2).getD d, true) ∧
      NotesKept own ((block ++ [leaf]) :: chain) tip
        (l.mapNotes fun d => (d.appendLeaf? leaf.2).getD d) := by
  have taken : ∀ r location d, NoteKept (own r) (block :: chain) tip l.cacheSize location d →
      ∃ d', d.appendLeaf? leaf.2 = some d' ∧
        NoteKept (own r) ((block ++ [leaf]) :: chain) tip l.cacheSize location d' :=
    fun _ _ _ hd => hd.appendLeaf? ht ha
  constructor
  · refine appendToNotes_eq (hl.imp fun r location d hd => ?_)
    obtain ⟨d', hd', -⟩ := taken r location d hd
    exact ⟨hd.isBehind (by omega) (by omega), by rw [hd']; rfl⟩
  · refine hl.mapNotes fun r location d hd => ?_
    obtain ⟨d', hd', hkept⟩ := taken r location d hd
    rw [hd']
    exact hkept

/-- Every note is behind the next block, so a location that needs no witness has no note. -/
theorem NotesKept.note?_eq_none {tip : Int} (hl : NotesKept own chain tip l) (htip : -1 ≤ tip)
    {location : NoteLocation} (hours : l.needsWitness location (tip + 1) = false) :
    l.note? location = none := by
  cases hd : l.note? location with
  | none => rfl
  | some d =>
    obtain ⟨r, hkept⟩ := hl.note? hd
    unfold needsWitness at hours
    rw [hd, Option.any_some, hkept.isBehind (by omega) (by omega)] at hours
    cases hours

/-- One leaf of a block. If there is a note of ours for it, that note holds one witness then. -/
theorem appendBlockLeaf_spec {block : List NoteLeaf} {tip : Int} {leaf : NoteLeaf}
    {tree tree' : NoteTree} (htip : -1 ≤ tip) (hsize : 0 < l.cacheSize)
    (hl : NotesKept own (block :: chain) tip l) (hleaf : LeafOwned own l leaf)
    (ht : TreeOf tree (leavesOf (block :: chain)))
    (ha : tree.append? sproutHash leaf.2 = some tree')
    (ht' : TreeOf tree' (leavesOf ((block ++ [leaf]) :: chain))) :
    ∃ l', appendBlockLeaf (tip + 1) leaf ⟨l, tree⟩ = (.ok (), ⟨l', tree'⟩) ∧
      NotesKept own ((block ++ [leaf]) :: chain) tip l' ∧ l'.cacheSize = l.cacheSize ∧
      Agree Entry.record l l' ∧
      ∀ location, l'.witnessesAt? location =
        (l.witnessesAt? location).map fun n => if location = leaf.1 then 1 else n := by
  obtain ⟨appended, grown⟩ := hl.appendToNotes htip ht ha
  have same : Agree Entry.record l (l.mapNotes fun d => (d.appendLeaf? leaf.2).getD d) :=
    agree_mapNotes (fun _ _ _ => rfl) _
  have lengths : ∀ location, Ledger.witnessesAt?
      (l.mapNotes fun d => (d.appendLeaf? leaf.2).getD d) location = l.witnessesAt? location := by
    intro location
    rw [witnessesAt?_mapNotes (g := id) fun d _ => d.length_appendLeaf? leaf.2, Option.map_id, id]
  unfold appendBlockLeaf
  rw [ha, appended]
  dsimp only
  cases hours : l.needsWitness leaf.1 (tip + 1) with
  | false =>
    refine ⟨_, rfl, grown, rfl, same, fun location => ?_⟩
    rw [if_neg Bool.false_ne_true, lengths]
    split
    · next h =>
      unfold Ledger.witnessesAt?
      rw [h, hl.note?_eq_none htip hours]
      rfl
    · exact Option.map_id'.symm
  | true =>
    refine ⟨_, rfl, ?_, rfl, same.trans (agree_modifyNote (fun _ _ _ => rfl) _ _),
      fun location => ?_⟩
    · refine grown.modifyNote fun e d he _ => ?_
      exact .withFirstWitness (same.leafOwned hleaf e he) ht' hsize d
    · rw [if_pos rfl]
      split
      · next h =>
        unfold Ledger.witnessesAt?
        rw [note?_modifyNote, if_pos h, h, note?_mapNotes]
        cases l.note? leaf.1 <;> rfl
      · next h =>
        rw [← lengths]
        unfold Ledger.witnessesAt?
        rw [note?_modifyNote, if_neg h]
        exact Option.map_id'.symm

/-- All leaves of a block, in order. -/
theorem forM_appendBlockLeaf {tip : Int} (htip : -1 ≤ tip) :
    ∀ (leaves : List NoteLeaf) {block : List NoteLeaf} {l : Ledger} {tree : NoteTree},
      0 < l.cacheSize → NotesKept own (block :: chain) tip l →
      (∀ leaf ∈ leaves, LeafOwned own l leaf) → TreeOf tree (leavesOf (block :: chain)) →
      (∃ t, TreeOf t (leavesOf ((block ++ leaves) :: chain))) →
      ∃ l' tree', leaves.forM (appendBlockLeaf (tip + 1)) ⟨l, tree⟩ = (.ok (), ⟨l', tree'⟩) ∧
        NotesKept own ((block ++ leaves) :: chain) tip l' ∧ l'.cacheSize = l.cacheSize ∧
        Agree Entry.record l l' ∧
        ∀ location, l'.witnessesAt? location = (l.witnessesAt? location).map fun n =>
          if location ∈ leaves.map (·.1) then 1 else n
  | [], block, l, tree, _, hl, _, _, _ => by
    refine ⟨l, tree, rfl, by rwa [List.append_nil], rfl, .refl _ l, fun location => ?_⟩
    simp
  | leaf :: rest, block, l, tree, hsize, hl, hown, ht, hroom => by
    obtain ⟨last, hlast⟩ := hroom
    obtain ⟨tree', ht', ha⟩ : ∃ tree', TreeOf tree' (leavesOf ((block ++ [leaf]) :: chain)) ∧
        tree.append? sproutHash leaf.2 = some tree' := by
      have hlast : CommitmentTree.Holds sproutHash last
          (commitmentsOf (leavesOf (block :: chain)) ++ leaf.2 :: commitmentsOf rest) := by
        simpa [TreeOf, commitmentsOf] using hlast
      obtain ⟨tree', ht', ha⟩ := ht.exists_next hlast
      exact ⟨tree', by simpa [TreeOf, commitmentsOf] using ht', ha⟩
    obtain ⟨l₁, hstep, hl₁, hsize₁, same₁, lengths₁⟩ := appendBlockLeaf_spec htip hsize hl
      (hown leaf List.mem_cons_self) ht ha ht'
    obtain ⟨l₂, tree₂, hrest, hl₂, hsize₂, same₂, lengths₂⟩ := forM_appendBlockLeaf htip rest
      (by omega) hl₁ (fun leaf' hmem => same₁.leafOwned (hown leaf' (List.mem_cons_of_mem _ hmem)))
      ht' ⟨last, by rwa [List.append_assoc]⟩
    rw [List.append_assoc] at hl₂
    refine ⟨l₂, tree₂, ?_, hl₂, hsize₂.trans hsize₁, same₁.trans same₂, fun location => ?_⟩
    · show (appendBlockLeaf (tip + 1) leaf >>= fun _ => rest.forM (appendBlockLeaf (tip + 1))) _ = _
      rw [bind_of_ok hstep]
      exact hrest
    · rw [lengths₂, lengths₁, Option.map_map]
      congr 1
      funext n
      dsimp only [Function.comp_apply]
      rw [List.map_cons, ite_cond_congr (propext List.mem_cons)]
      by_cases hfirst : location = leaf.1
      · simp [hfirst]
      · simp only [hfirst, false_or, if_false]

/-! ## Connecting and disconnecting -/

/-- The ledger's witnesses are those of the last blocks of the chain, and its entries are of records
in `known`. -/
structure Witnessed (own : Record → NoteLeaf → Prop) (known : Record → Prop)
    (chain : List (List NoteLeaf)) (l : Ledger) : Prop where
  /-- No more witnesses are accounted for than the settings allow. -/
  cacheSize_le : l.cacheSize ≤ l.settings.witnessLimit
  /-- An entry is found by the hash of its record, which is one of those known. -/
  entries : ∀ hash e, l.entry? hash = some e → e.hash = hash ∧ known e.record
  /-- The notes keep the witnesses of the last blocks. -/
  notes : NotesKept own chain (chain.length - 1) l

variable {known : Record → Prop}

/-- Entries of known records, found by their hashes, are so in every ledger with the same
records. -/
theorem Agree.records (h : Agree Entry.record l l')
    (hl : ∀ hash e, l.entry? hash = some e → e.hash = hash ∧ known e.record) :
    ∀ hash e, l'.entry? hash = some e → e.hash = hash ∧ known e.record := by
  intro hash e' he'
  obtain ⟨e, he, hr⟩ := h.entry he'
  have := hl hash e he
  rwa [Entry.hash, hr]

/-- No note stands in the way of the next block. -/
theorem Witnessed.connectFault? (hl : Witnessed own known chain l) :
    l.connectFault? chain.length = none := by
  unfold Ledger.connectFault?
  rw [List.findSome?_eq_none_iff]
  intro d hd
  obtain ⟨r, location, hkept⟩ := hl.notes.mem (List.mem_filter.1 hd).1
  exact hkept.fault?

/-- The next block is connected, if the tree has room for its leaves. Our notes in it hold one
witness then, and the others that hold any one more, up to the limit. -/
theorem Witnessed.connectBlock (hl : Witnessed own known chain l) {block : Block} {tree : NoteTree}
    (hown : ∀ leaf ∈ block.noteLeaves, LeafOwned own l leaf) (ht : TreeOf tree (leavesOf chain))
    (hroom : ∃ t, TreeOf t (leavesOf (block.noteLeaves :: chain))) :
    ∃ l' tree', Ledger.connectBlock chain.length block ⟨l, tree⟩ = (.ok (), ⟨l', tree'⟩) ∧
      Witnessed own known (block.noteLeaves :: chain) l' ∧ Agree Entry.record l l' ∧
      l'.cacheSize = min (l.cacheSize + 1) l.settings.witnessLimit ∧
      ∀ location, l'.witnessesAt? location = (l.witnessesAt? location).map fun n =>
        if location ∈ block.noteLeaves.map (·.1) then 1
        else if n = 0 then 0 else min (n + 1) l.settings.witnessLimit := by
  have limit := l.settings.witnessLimit_pos
  have bounded := hl.cacheSize_le
  have size : (l.openWitnesses chain.length).cacheSize =
      if l.cacheSize < l.settings.witnessLimit then l.cacheSize + 1 else l.cacheSize := rfl
  -- With its witness opened, a note is kept for a block that has no leaves yet; the leaves then
  -- fill the block, and settling moves the height on.
  have opened : NotesKept own ([] :: chain) (chain.length - 1) (l.openWitnesses chain.length) := by
    refine ForNotes.of_entries (l := l.mapNotes _) (hl.notes.mapNotes fun r location d hd => ?_) rfl
    rw [hd.isBehind (by omega) (by omega), if_pos rfl, size]
    exact hd.openWitness bounded
  have same : Agree Entry.record l (l.openWitnesses chain.length) :=
    agree_openWitnesses (fun _ _ _ => rfl) _
  obtain ⟨l₁, tree', happended, hl₁, hsize₁, same₁, lengths⟩ := forM_appendBlockLeaf (by omega)
    block.noteLeaves (by rw [size]; split <;> omega) opened
    (fun leaf hmem => same.leafOwned (hown leaf hmem)) (by simpa using ht) hroom
  rw [List.nil_append] at hl₁
  rw [Int.sub_add_cancel] at happended
  have settled : NotesKept own (block.noteLeaves :: chain) chain.length
      (l₁.settleWitnesses chain.length) := by
    refine hl₁.mapNotes fun r location d hd => ?_
    rw [hd.isBehind (by omega) (by omega), if_pos rfl]
    exact hd.settle _
  have same' : Agree Entry.record l (l₁.settleWitnesses chain.length) :=
    (same.trans same₁).trans (agree_mapNotes (fun _ _ _ => rfl) _)
  refine ⟨l₁.settleWitnesses chain.length, tree', ?_, ⟨?_, same'.records hl.entries, ?_⟩, same',
    ?_, fun location => ?_⟩
  · have got : (get : TipOp TipState) ⟨l, tree⟩ = (.ok ⟨l, tree⟩, ⟨l, tree⟩) := rfl
    have opening : (modify fun s => { s with ledger := s.ledger.openWitnesses chain.length } :
        TipOp PUnit) ⟨l, tree⟩ = (.ok (), ⟨l.openWitnesses chain.length, tree⟩) := rfl
    unfold Ledger.connectBlock
    rw [bind_of_ok got]
    dsimp only
    rw [hl.connectFault?]
    dsimp only
    rw [bind_of_ok opening, bind_of_ok happended]
    rfl
  · show l₁.cacheSize ≤ l₁.settings.witnessLimit
    rw [hsize₁, (same.trans same₁).settings, size]
    split <;> omega
  · rwa [List.length_cons, Int.natCast_add, Int.natCast_one, Int.add_sub_cancel]
  · show l₁.cacheSize = _
    rw [hsize₁, size]
    split <;> omega
  · have kept : Ledger.witnessesAt? (l₁.settleWitnesses chain.length) location =
        l₁.witnessesAt? location := by
      refine (witnessesAt?_mapNotes (g := id) fun d _ => ?_).trans (by rw [Option.map_id, id])
      split <;> rfl
    have opening : Ledger.witnessesAt? (l.openWitnesses chain.length) location =
        (l.witnessesAt? location).map fun n =>
          if n = 0 then 0 else min (n + 1) l.settings.witnessLimit := by
      refine witnessesAt?_mapNotes (l := l) fun d hd => ?_
      obtain ⟨r, hkept⟩ := hl.notes.note? hd
      rw [hkept.isBehind (by omega) (by omega), if_pos rfl, d.length_openWitness]
    rw [kept, lengths, opening, Option.map_map]
    rfl

/-- The tip is disconnected, unless no witness is accounted for any more. -/
theorem Witnessed.disconnectBlock {block : List NoteLeaf}
    (hl : Witnessed own known (block :: chain) l) (hsize : l.cacheSize ≠ 0) :
    ∃ l', Ledger.disconnectBlock chain.length l = (.ok (), l') ∧ Witnessed own known chain l' := by
  have tip : (((block :: chain).length : Nat) : Int) - 1 = chain.length := by
    rw [List.length_cons]
    omega
  have notes := hl.notes
  rw [tip] at notes
  have hfault : l.disconnectFault? chain.length = none := by
    unfold disconnectFault?
    rw [if_neg hsize, List.findSome?_eq_none_iff]
    intro d hd
    obtain ⟨r, location, hkept⟩ := notes.mem (List.mem_filter.1 hd).1
    exact hkept.fault?
  refine ⟨l.dropWitnesses chain.length, ?_, ?_, ?_, ?_⟩
  · unfold Ledger.disconnectBlock
    rw [hfault]
  · have := hl.cacheSize_le
    show l.cacheSize - 1 ≤ l.settings.witnessLimit
    omega
  · exact Agree.records (agree_dropWitnesses (fun _ _ _ => rfl) _) hl.entries
  · refine ForNotes.of_entries (l := l.mapNotes _) (notes.mapNotes fun r location d hd => ?_) rfl
    rw [hd.isBehind (by omega) (by omega), if_pos rfl]
    exact hd.dropWitness _

/-- With no witness accounted for, the tip is not disconnected, and nothing changes. -/
theorem disconnectBlock_of_cacheSize_eq_zero (hsize : l.cacheSize = 0) (height : Int) :
    Ledger.disconnectBlock height l = (.error (.fault (.cacheUnderflow height)), l) := by
  unfold Ledger.disconnectBlock disconnectFault?
  rw [if_pos hsize]

end Ledger
end ShieldedLedger
