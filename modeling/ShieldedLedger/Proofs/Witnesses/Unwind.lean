import ShieldedLedger.Proofs.Witnesses.Follower
import ShieldedLedger.Proofs.Witnesses.Notes

/-!
# Unwinding what was connected

Blocks are connected to a ledger that is in step with its chain, and then disconnected again, the
last one first (`connectAll`, `disconnectAll`). What is left of the witness history of a note is
told by one equation (`IsRemainder`): after `depth` blocks, all but its newest `depth` witnesses are
the newest that it had at first, as many as the limit leaves room for. Opening a witness for a block
and dropping the newest one count `depth` up and down, and leaves change the newest witness only.

A note may be gone afterwards. An entry is found by the hash of its record, and if another record
with that hash is in a block, the notes that the keys find in it replace those of the entry
(`Superseded`).
-/

namespace ShieldedLedger

/-- A note among those stored is there after a merge, unless other notes are found and it is not
among them. -/
theorem NoteMap.isSome_get?_merge {stored fresh : NoteMap} {location : NoteLocation}
    (hs : (stored.get? location).isSome)
    (hf : fresh.isEmpty = true ∨ (fresh.get? location).isSome) :
    ((stored.merge fresh).get? location).isSome := by
  unfold NoteMap.merge
  split
  · exact hs
  · next hnot =>
    rcases hf with hf | hf
    · rw [hf] at hnot
      exact absurd rfl hnot
    · unfold NoteMap.carryWitnesses
      rw [SortedMap.get?_mapValues, Option.isSome_map]
      exact hf

namespace Ledger

variable {l l' : Ledger} {location : NoteLocation}

/-! ## Notes that stay -/

/-- Where a note is found depends on the notes of the entries alone. -/
theorem note?_congr
    (h : ∀ hash, (l'.entry? hash).map witnessedPart = (l.entry? hash).map witnessedPart)
    (location : NoteLocation) : l'.note? location = l.note? location := by
  have same : (l'.entry? location.hash).map Entry.notes =
      (l.entry? location.hash).map Entry.notes := by
    have := congrArg (Option.map Prod.snd) (h location.hash)
    rwa [Option.map_map, Option.map_map] at this
  have read : ∀ l : Ledger, l.note? location =
      ((l.entry? location.hash).map Entry.notes).bind fun notes => notes.get? location := by
    intro l
    unfold note?
    rw [Option.bind_map]
    rfl
  rw [read, same, read]

/-- A chain update takes no note away and adds none. -/
theorem isSome_note?_of_agree (h : Agree (fun e => (e.notes.get? location).isSome) l l') :
    (l'.note? location).isSome = (l.note? location).isSome := by
  have read : ∀ l : Ledger, (l.note? location).isSome =
      ((l.entry? location.hash).map fun e => (e.notes.get? location).isSome).getD false := by
    intro l
    unfold note?
    cases l.entry? location.hash <;> rfl
  rw [read, h.entries, read]

/-- Whether an entry holds a note can be told from the places of its notes. -/
theorem ignoresNoteData_isSome (location : NoteLocation) :
    IgnoresNoteData fun e => (e.notes.get? location).isSome := by
  have listed : ∀ notes : NoteMap, (notes.get? location).isSome = true ↔
      location ∈ SortedMap.keys notes := by
    intro notes
    rw [Option.isSome_iff_exists]
    constructor
    · rintro ⟨d, hd⟩
      exact List.mem_map.2 ⟨(location, d), SortedMap.mem_toList_iff.2 hd, rfl⟩
    · intro h
      obtain ⟨⟨place, d⟩, hmem, rfl⟩ := List.mem_map.1 h
      exact ⟨d, SortedMap.mem_toList_iff.1 hmem⟩
  intro e notes hkeys
  rw [Bool.eq_iff_iff]
  show (notes.get? location).isSome = true ↔ (e.notes.get? location).isSome = true
  rw [listed, listed, hkeys]

variable {known : Record → Prop} {P : Record → NoteLocation → NoteData → Prop}

/-- Adding an entry takes no note away, unless the entry replaces the one the note is in. -/
theorem keeps_note_addEntry (view : ChainView) (now : Int64) {incoming : Entry}
    (hkept : incoming.hash = location.hash →
      incoming.notes.isEmpty = true ∨ (incoming.notes.get? location).isSome) {l : Ledger}
    (hl : Holding known P l) (hnote : (l.note? location).isSome) :
    Option.isSome (note? (addEntry view now incoming l).2 location) := by
  obtain ⟨x, hx, hget⟩ : ∃ x, l.entry? location.hash = some x ∧
      (x.notes.get? location).isSome := by
    unfold note? at hnote
    cases hx : l.entry? location.hash with
    | none =>
      rw [hx] at hnote
      cases hnote
    | some x =>
      rw [hx] at hnote
      exact ⟨x, rfl, hnote⟩
  rcases addEntry_cases view now incoming l with h | ⟨hnew, store, h⟩ | ⟨stored, store, hs, h⟩
  · rwa [h]
  · have hne : location.hash ≠ incoming.hash := by
      intro heq
      rw [heq, hnew] at hx
      cases hx
    rw [h, note?_congr (agree_indexEntry _).entries, note?_congr (witnessedPart_registerSpends _ _)]
    have hash : (incoming.received view now l.nextOrder).markDirty.hash = incoming.hash := rfl
    unfold note?
    rw [entry?_withNew, hash, if_neg hne, hx]
    exact hget
  · rw [h, note?_congr (agree_indexEntry _).entries]
    have hash : (stored.merge incoming).markDirty.hash = incoming.hash := (hl.entries _ _ hs).1
    unfold note?
    rw [entry?_withMerged, hash]
    split
    · next heq =>
      rw [heq, hs] at hx
      obtain rfl := Option.some.inj hx
      show Option.isSome ((stored.merge incoming).notes.get? location)
      unfold Entry.merge
      split
      · exact NoteMap.isSome_get?_merge hget (hkept heq.symm)
      · exact hget
    · rw [hx]
      exact hget

/-- Nor does a notification, unless the keys find other notes in a record with the hash of the
note's own and do not find the note there. -/
theorem keeps_note_sync (keys : KeyView) (view : ChainView) (now : Int64) {r : Record}
    (block : Option Block) (hr : known r) (hP : OfWitnesses P)
    (hfound : ∀ location d, (r.findNotes keys).get? location = some d → ∀ r', P r' location d)
    (hkept : r.hash = location.hash →
      (r.findNotes keys).isEmpty = true ∨ ((r.findNotes keys).get? location).isSome) :
    Keeps (fun l => Holding known P l ∧ (l.note? location).isSome)
      (sync keys view now r block) := by
  refine keeps_sync (fun notes link hnotes l hl => ?_) fun l hl => ?_
  · refine ⟨keeps_holding_addRecord keys view now hr hP hfound hnotes l hl.1,
      keeps_note_addEntry view now (fun heq => ?_) hl.1 hl.2⟩
    rcases hnotes with rfl | rfl
    · exact .inl rfl
    · exact hkept heq
  · have same := agree_markAffectedDirty (f := witnessedPart) (l := l) (fun _ _ => rfl) r
    refine ⟨hl.1.of_entries same.entries, ?_⟩
    rw [note?_congr same.entries]
    exact hl.2

end Ledger

/-! ## What unwinding leaves of a history -/

namespace Follower

/-- The witnesses of the note at a location; none if there is no such note. -/
def witnessesAt (l : Ledger) (location : NoteLocation) : List NoteWitness :=
  ((l.note? location).map (·.witnesses)).getD []

/-- A transaction in one of the blocks has the hash of the note's record, and the keys find notes in
it, but not this one. -/
def Superseded (news : List (Surroundings × Block)) (location : NoteLocation) : Prop :=
  ∃ n ∈ news, ∃ tx ∈ n.2.transactions, tx.hash = location.hash ∧
    (findNotes n.1.keys tx).isEmpty = false ∧ (findNotes n.1.keys tx).get? location = none

/-- No transaction in the blocks owns a note that holds a witness already. -/
def Unwitnessed (old : Ledger) (news : List (Surroundings × Block)) : Prop :=
  ∀ n ∈ news, ∀ tx ∈ n.2.transactions, ∀ location, location.hash = tx.hash →
    witnessesAt old location = []

/-- Which can be told from the entries that the transactions have. -/
theorem unwitnessed_of_all {old : Ledger} {news : List (Surroundings × Block)}
    (h : ∀ n ∈ news, ∀ tx ∈ n.2.transactions, (old.entry? tx.hash).all (fun e =>
      e.notes.values.all fun d => d.witnesses.isEmpty) = true) : Unwitnessed old news := by
  intro n hn tx htx location hloc
  have bare := h n hn tx htx
  unfold witnessesAt Ledger.note?
  rw [hloc]
  cases he : old.entry? tx.hash with
  | none => rfl
  | some e =>
    rw [he] at bare
    rw [Option.bind_some]
    cases hd : e.notes.get? location with
    | none => rfl
    | some d =>
      have held : d ∈ e.notes.values := SortedMap.mem_values_iff.2 ⟨location, hd⟩
      exact List.isEmpty_iff.1 (List.all_eq_true.1 bare d held)

/-- What is left of a history: all but the newest `depth` witnesses are the newest that there were
at first, but for the last `reach` places. -/
def IsRemainder (limit reach depth : Nat) (first witnesses : List NoteWitness) : Prop :=
  witnesses.drop depth = first.take (limit - reach)

namespace IsRemainder

variable {limit reach depth : Nat} {first : List NoteWitness} {d : NoteData}

theorem nil : IsRemainder limit reach depth [] [] := by
  unfold IsRemainder
  rw [List.drop_nil, List.take_nil]

/-- A new witness is opened, at the expense of the oldest if there is no room. -/
theorem openWitness (h : IsRemainder limit depth depth first d.witnesses) :
    IsRemainder limit (depth + 1) (depth + 1) first (d.openWitness limit).witnesses := by
  have shorter : first.take (limit - (depth + 1)) =
      (first.take (limit - depth)).take (limit - (depth + 1)) := by
    rw [List.take_take, Nat.min_eq_left (by omega)]
  unfold IsRemainder at h ⊢
  rw [shorter, ← h]
  unfold NoteData.openWitness
  cases hw : d.witnesses with
  | nil =>
    dsimp only
    rw [hw, List.drop_nil, List.drop_nil, List.take_nil]
  | cons newest older =>
    dsimp only
    rw [List.drop_take, List.drop_succ_cons]

/-- A leaf changes the newest witness only. -/
theorem appendLeaf? {d' : NoteData} {leaf : Hash256}
    (h : IsRemainder limit reach (depth + 1) first d.witnesses)
    (hd : d.appendLeaf? leaf = some d') :
    IsRemainder limit reach (depth + 1) first d'.witnesses := by
  unfold NoteData.appendLeaf? at hd
  split at hd
  · obtain rfl := Option.some.inj hd
    exact h
  · next newest older hw =>
    obtain ⟨grown, -, rfl⟩ := Option.map_eq_some_iff.1 hd
    rw [hw] at h
    exact h

/-- The first witness of a note is above what there was at first, which is nothing. -/
theorem withFirstWitness (w : NoteWitness) (height : Int) :
    IsRemainder limit reach (depth + 1) [] (d.withFirstWitness w height).witnesses := by
  show [w].drop (depth + 1) = [].take (limit - reach)
  simp

/-- Dropping the newest witness takes off one of those that came on top. -/
theorem dropWitness (h : IsRemainder limit reach (depth + 1) first d.witnesses) (height : Int) :
    IsRemainder limit reach depth first (d.dropWitness height).witnesses := by
  show (d.witnesses.drop 1).drop depth = _
  rw [List.drop_drop, Nat.add_comm]
  exact h

end IsRemainder

/-- What is left of the history that the note at a location had in the ledger `old`. -/
def Remains (old : Ledger) (reach depth : Nat) (location : NoteLocation) (d : NoteData) : Prop :=
  IsRemainder old.settings.witnessLimit reach depth (witnessesAt old location) d.witnesses

/-- What is left of a history is about witnesses alone. -/
theorem ofWitnesses_remains (old : Ledger) (reach depth : Nat) :
    Ledger.OfWitnesses fun _ => Remains old reach depth := by
  intro _ location d d' hw _ hd
  unfold Remains at hd ⊢
  rwa [hw]

/-- What blocks leave alone of the ledger `old` that they are connected to, and disconnected from
again. -/
structure Carried (old : Ledger) (news : List (Surroundings × Block)) (reach depth : Nat)
    (l : Ledger) : Prop where
  /-- The settings are the same. -/
  settings : l.settings = old.settings
  /-- Every history has lost its oldest witnesses at most. -/
  holding : Ledger.Holding (fun _ => True) (fun _ => Remains old reach depth) l
  /-- No note is gone, unless other notes have taken its place. -/
  kept : ∀ location, (old.note? location).isSome → ¬ Superseded news location →
    (l.note? location).isSome

section
variable {old l l' : Ledger} {news : List (Surroundings × Block)} {reach depth : Nat}
  {s : Surroundings} {block : Block}

/-- The commitments of a block belong to notes of its transactions. -/
theorem exists_transaction_of_mem_noteLeaves {leaf : NoteLeaf} (h : leaf ∈ block.noteLeaves) :
    ∃ tx ∈ block.transactions, leaf.1.hash = tx.hash := by
  obtain ⟨tx, htx, h⟩ := List.mem_flatMap.1 h
  exact ⟨tx, htx, Record.hash_of_mem_noteLeaves (r := .transaction tx) h⟩

/-- Records of a block are taken in. -/
theorem keeps_carried_sync (hnews : Unwitnessed old news) (hblock : (s, block) ∈ news) {r : Record}
    (hr : r ∈ block.records) (view : ChainView) :
    Keeps (Carried old news reach depth) (Ledger.sync s.keys view s.now r (some block)) := by
  have origin : (∃ tx ∈ block.transactions, r = .transaction tx) ∨
      ∃ cert, r = .certificate cert := by
    rcases List.mem_append.1 hr with hr | hr
    · obtain ⟨tx, htx, heq⟩ := List.mem_map.1 hr
      exact .inl ⟨tx, htx, heq.symm⟩
    · obtain ⟨cert, -, heq⟩ := List.mem_map.1 hr
      exact .inr ⟨cert, heq.symm⟩
  have fresh : ∀ location d, (r.findNotes s.keys).get? location = some d → Record →
      Remains old reach depth location d := by
    intro location d hd _
    rcases origin with ⟨tx, htx, rfl⟩ | ⟨cert, rfl⟩
    · obtain ⟨hloc, hw, -⟩ := isFound_findNotes hd
      unfold Remains
      rw [hw, hnews _ hblock tx htx location hloc]
      exact .nil
    · cases hd
  have stays : ∀ location, ¬ Superseded news location → r.hash = location.hash →
      (r.findNotes s.keys).isEmpty = true ∨ ((r.findNotes s.keys).get? location).isSome := by
    intro location hnot heq
    rcases origin with ⟨tx, htx, rfl⟩ | ⟨cert, rfl⟩
    · cases hempty : (findNotes s.keys tx).isEmpty with
      | true => exact .inl hempty
      | false =>
        refine .inr (Option.ne_none_iff_isSome.1 fun hnone => hnot ?_)
        exact ⟨_, hblock, tx, htx, heq, hempty, hnone⟩
    · exact .inl rfl
  have ofWitnesses := ofWitnesses_remains old reach depth
  intro l hl
  refine ⟨Ledger.keeps_settings_sync s.keys view s.now (some block) _ l hl.settings,
    Ledger.keeps_holding_sync s.keys view s.now trivial ofWitnesses fresh (some block) l hl.holding,
    fun location hold hnot => ?_⟩
  exact (Ledger.keeps_note_sync s.keys view s.now (some block) trivial ofWitnesses fresh
    (stays location hnot) l ⟨hl.holding, hl.kept location hold hnot⟩).2

/-- A block is connected to notes that are all behind it. -/
theorem Carried.connectBlock (hl : Carried old news depth depth l) {height : Int}
    {tree tree' : NoteTree} (hbehind : Ledger.ForNotes (fun _ _ d => d.isBehind height = true) l)
    (hnews : ∀ leaf ∈ block.noteLeaves, witnessesAt old leaf.1 = [])
    (hok : Ledger.connectBlock height block ⟨l, tree⟩ = (.ok (), ⟨l', tree'⟩)) :
    Carried old news (depth + 1) (depth + 1) l' ∧
      l'.cacheSize = (l.openWitnesses height).cacheSize := by
  have places : ∀ {β : Type} {f : Entry → β}, IgnoresNoteData f → Ledger.Agree f l l' := by
    intro β f hf
    have kept := Ledger.keeps_agree_chainTip hf l ⟨height, block.hash, block.time⟩ block true
      ⟨l, tree⟩ (.refl f l)
    unfold Ledger.chainTip at kept
    rwa [if_pos rfl, hok] at kept
  have both : Ledger.Holding (fun _ => True) (fun _ location d =>
      d.isBehind height = true ∧ Remains old depth depth location d) l :=
    ⟨hl.holding.entries, hbehind.and hl.holding.notes⟩
  rcases Ledger.connectBlock_cases height block ⟨l, tree⟩ with
    ⟨fault, -, h⟩ | ⟨-, outcome, s₁, hwalk, ⟨-, h⟩ | ⟨-, h⟩⟩
  case inl | inr.inr =>
    rw [hok] at h
    cases h
  obtain rfl : l' = s₁.ledger.settleWitnesses height := by
    rw [hok] at h
    exact congrArg (fun r => r.2.ledger) h
  -- The witness that is opened is one more on top, and may push the oldest one out: depth and reach
  -- grow together.
  obtain ⟨grown, size, -⟩ := both.forM_appendBlockLeaf
    (Q := fun _ => Remains old (depth + 1) (depth + 1)) tree
    (fun _ location d hd => by
      rw [if_pos hd.1, hl.settings]
      exact hd.2.openWitness)
    (fun _ _ _ _ _ hd happend => hd.appendLeaf? happend)
    (fun leaf hleaf _ d w _ => by
      unfold Remains
      rw [hnews leaf hleaf]
      exact .withFirstWitness w height) hwalk
  refine ⟨⟨?_, ?_, fun location hold hnot => ?_⟩, size⟩
  · rw [(places (f := Entry.record) fun _ _ _ => rfl).settings]
    exact hl.settings
  · refine grown.of_notes (Ledger.agree_mapNotes (fun _ _ _ => rfl) _)
      (grown.notes.mapNotes fun _ _ _ hd => ?_)
    split <;> exact hd
  · rw [Ledger.isSome_note?_of_agree (places (Ledger.ignoresNoteData_isSome location))]
    exact hl.kept location hold hnot

/-- A block is disconnected from notes that are all at its height or below. -/
theorem Carried.disconnectBlock (hl : Carried old news reach (depth + 1) l) {height : Int}
    (hbehind : Ledger.ForNotes (fun _ _ d => d.isBehind (height + 1) = true) l)
    (hok : Ledger.disconnectBlock height l = (.ok (), l')) :
    Carried old news reach depth l' ∧ l'.cacheSize = l.cacheSize - 1 ∧
      Ledger.ForNotes (fun _ _ d => d.witnessHeight = height - 1) l' := by
  rcases Ledger.disconnectBlock_cases height l with ⟨fault, -, h⟩ | ⟨-, h⟩
  case inl =>
    rw [hok] at h
    cases h
  obtain rfl : l' = l.dropWitnesses height := by
    rw [hok] at h
    exact congrArg Prod.snd h
  have places : ∀ {β : Type} {f : Entry → β}, IgnoresNoteData f →
      Ledger.Agree f l (l.dropWitnesses height) := fun hf => Ledger.agree_dropWitnesses hf height
  have dropped : Ledger.ForNotes (fun _ location d => Remains old reach depth location d ∧
      d.witnessHeight = height - 1) (l.dropWitnesses height) := by
    refine Ledger.ForNotes.of_entries (l := l.mapNotes _)
      ((hbehind.and hl.holding.notes).mapNotes fun _ location d hd => ?_) rfl
    rw [if_pos hd.1]
    exact ⟨hd.2.dropWitness height, rfl⟩
  refine ⟨⟨hl.settings, ?_, fun location hold hnot => ?_⟩, rfl, dropped.imp fun _ _ _ hd => hd.2⟩
  · exact hl.holding.of_notes (places fun _ _ _ => rfl) (dropped.imp fun _ _ _ hd => hd.1)
  · rw [Ledger.isSome_note?_of_agree (places (Ledger.ignoresNoteData_isSome location))]
    exact hl.kept location hold hnot

end

/-! ## Connecting and disconnecting again -/

/-- Connects a block: takes in its records, each of which the ledger may refuse, and then moves the
tip. -/
def connectOne (s : Surroundings) (block : Block) (f : Follower) : Except Failure Follower :=
  match takeIn s (some block) block.records f.ledger with
  | (some fault, _) => .error (.fault fault)
  | (none, l) =>
    match Ledger.tipOn (treeAfter f.blocks)
      (Ledger.chainTip ⟨f.blocks.length, block.hash, block.time⟩ block true) l with
    | (.error failure, _) => .error failure
    | (.ok _, l) => .ok ⟨l, block :: f.blocks⟩

/-- Disconnects the tip, if there is one. -/
def disconnectOne : Follower → Except Failure Follower
  | ⟨l, []⟩ => .ok ⟨l, []⟩
  | ⟨l, block :: blocks⟩ =>
    match Ledger.tipOn (treeAfter blocks)
      (Ledger.chainTip ⟨blocks.length, block.hash, block.time⟩ block false) l with
    | (.error failure, _) => .error failure
    | (.ok _, l) => .ok ⟨l, blocks⟩

/-- Connects blocks one after the other, up to the first failure. -/
def connectAll : List (Surroundings × Block) → Follower → Except Failure Follower
  | [], f => .ok f
  | n :: rest, f => f.connectOne n.1 n.2 >>= connectAll rest

/-- Disconnects so many blocks, up to the first failure. -/
def disconnectAll : Nat → Follower → Except Failure Follower
  | 0, f => .ok f
  | count + 1, f => f.disconnectOne >>= disconnectAll count

section
variable {old : Ledger} {news : List (Surroundings × Block)} {reach depth : Nat} {f : Follower}
  {s : Surroundings} {block : Block}

/-- All notes of a ledger in step with its chain are behind the next block. -/
theorem InStep.isBehind {known : Record → Prop} (hf : InStep known f) :
    Ledger.ForNotes (fun _ _ d => d.isBehind f.blocks.length = true) f.ledger := by
  refine hf.witnessed.notes.imp fun r location d hd => hd.isBehind ?_ (by omega)
  rw [List.length_map]
  omega

/-- One block more. -/
theorem connectOne_spec (hf : InStep (fun _ => True) f) (hl : Carried old news depth depth f.ledger)
    (hnews : Unwitnessed old news) (hblock : (s, block) ∈ news)
    (hroom : HasRoom (block :: f.blocks)) :
    ∃ l, f.connectOne s block = .ok ⟨l, block :: f.blocks⟩ ∧
      InStep (fun _ => True) ⟨l, block :: f.blocks⟩ ∧ Carried old news (depth + 1) (depth + 1) l ∧
      l.cacheSize = min (f.ledger.cacheSize + 1) old.settings.witnessLimit := by
  obtain ⟨l₁, htaken, ⟨hl₁, hcarried₁⟩, hsize₁⟩ := takeIn_keeps (I := fun l =>
    (Ledger.Witnessed (LeafOfHash fun _ => True) (fun _ => True) (f.blocks.map Block.noteLeaves) l ∧
      Carried old news depth depth l) ∧ l.cacheSize = f.ledger.cacheSize) s (some block)
    block.records
    (fun r hr => ((Ledger.keeps_witnessed_sync _ _ _ _ trivial).and
      (keeps_carried_sync hnews hblock hr _)).and (Ledger.keeps_cacheSize_sync _ _ _ _ _))
    ⟨⟨hf.witnessed, hl⟩, rfl⟩
  obtain ⟨l₂, tree, hconnected, hf₂, -⟩ := connect_spec hl₁ (fun _ _ => trivial) hroom
  have hf₁ : InStep (fun _ => True) ⟨l₁, f.blocks⟩ := ⟨hl₁, hf.room⟩
  obtain ⟨hcarried₂, hsize₂⟩ := hcarried₁.connectBlock hf₁.isBehind (fun leaf hleaf => by
    obtain ⟨tx, htx, hloc⟩ := exists_transaction_of_mem_noteLeaves hleaf
    exact hnews _ hblock tx htx leaf.1 hloc) hconnected
  refine ⟨l₂, ?_, hf₂, hcarried₂, ?_⟩
  · unfold connectOne
    rw [htaken]
    dsimp only
    rw [Ledger.tipOn_connect, hconnected]
  · have bounded := hl₁.cacheSize_le
    have limit := hcarried₁.settings
    rw [hsize₂]
    show (if l₁.cacheSize < l₁.settings.witnessLimit then l₁.cacheSize + 1 else l₁.cacheSize) = _
    rw [limit] at bounded ⊢
    split <;> omega

/-- A block that the tree has no room for is not connected. -/
theorem InStep.connectBlock_treeFull {known : Record → Prop} (hf : InStep known f)
    (hroom : ¬ HasRoom (block :: f.blocks)) :
    (Ledger.connectBlock f.blocks.length block ⟨f.ledger, treeAfter f.blocks⟩).1 =
      .error (.error .treeFull) := by
  have hfault := hf.witnessed.connectFault?
  rw [List.length_map] at hfault
  rcases Ledger.connectBlock_cases f.blocks.length block ⟨f.ledger, treeAfter f.blocks⟩ with
    ⟨fault, h, -⟩ | ⟨-, outcome, s₁, hwalk, ⟨rfl, -⟩ | ⟨-, h⟩⟩
  · rw [hfault] at h
    cases h
  · have full := Ledger.treeOf_of_forM_appendBlockLeaf block.noteLeaves hf.room.treeOf hwalk
    refine absurd (hasRoom_iff.2 ?_) hroom
    have bounded := full.length_le
    rw [commitmentsOf, List.length_map] at bounded
    unfold chainLeaves at bounded ⊢
    rwa [List.map_cons, leavesOf_cons]
  · rw [h]

/-- So it is refused. -/
theorem connectOne_treeFull (hf : InStep (fun _ => True) f)
    (hroom : ¬ HasRoom (block :: f.blocks)) :
    f.connectOne s block = .error (.error .treeFull) := by
  obtain ⟨l₁, htaken, hl₁⟩ := takeIn_spec s (some block) block.records
    (fun _ _ => trivial) hf.witnessed
  have hf₁ : InStep (fun _ => True) ⟨l₁, f.blocks⟩ := ⟨hl₁, hf.room⟩
  have refused := hf₁.connectBlock_treeFull hroom
  unfold connectOne
  rw [htaken]
  dsimp only at refused ⊢
  rw [Ledger.tipOn_connect, refused]

/-- One block less. -/
theorem disconnectOne_spec {blocks : List Block} {l : Ledger}
    (hf : InStep (fun _ => True) ⟨l, block :: blocks⟩) (hl : Carried old news reach (depth + 1) l)
    (hsize : l.cacheSize ≠ 0) :
    ∃ l', disconnectOne ⟨l, block :: blocks⟩ = .ok ⟨l', blocks⟩ ∧
      InStep (fun _ => True) ⟨l', blocks⟩ ∧ Carried old news reach depth l' ∧
      l'.cacheSize = l.cacheSize - 1 ∧
      Ledger.ForNotes (fun _ _ d => d.witnessHeight = (blocks.length : Int) - 1) l' := by
  obtain ⟨l', hdisconnected, hf'⟩ := disconnect_spec hf hsize
  have hbehind := hf.isBehind
  rw [List.length_cons, Int.natCast_add, Int.natCast_one] at hbehind
  obtain ⟨hcarried, hsize', heights⟩ := hl.disconnectBlock hbehind hdisconnected
  refine ⟨l', ?_, hf', hcarried, hsize', heights⟩
  unfold disconnectOne
  dsimp only
  rw [Ledger.tipOn_disconnect, hdisconnected]

/-- All blocks more. -/
theorem connectAll_spec (hnews : Unwitnessed old news) : ∀ (rest : List (Surroundings × Block))
    {f : Follower} {depth : Nat}, (∀ n ∈ rest, n ∈ news) →
    HasRoom ((rest.map (·.2)).reverse ++ f.blocks) → InStep (fun _ => True) f →
    Carried old news depth depth f.ledger →
    ∃ l, connectAll rest f = .ok ⟨l, (rest.map (·.2)).reverse ++ f.blocks⟩ ∧
      InStep (fun _ => True) ⟨l, (rest.map (·.2)).reverse ++ f.blocks⟩ ∧
      Carried old news (depth + rest.length) (depth + rest.length) l ∧
      l.cacheSize = min (f.ledger.cacheSize + rest.length) old.settings.witnessLimit
  | [], f, depth, _, _, hf, hl => by
    refine ⟨f.ledger, rfl, hf, hl, ?_⟩
    have bounded := hf.witnessed.cacheSize_le
    rw [hl.settings] at bounded
    simp only [List.length_nil]
    omega
  | (s, block) :: rest, f, depth, hmem, hroom, hf, hl => by
    rw [List.map_cons, List.reverse_cons, List.append_assoc, List.singleton_append] at hroom ⊢
    obtain ⟨l₁, hone, hf₁, hl₁, hsize₁⟩ := connectOne_spec hf hl hnews
      (hmem _ List.mem_cons_self) hroom.of_append
    obtain ⟨l₂, hrest, hf₂, hl₂, hsize₂⟩ := connectAll_spec hnews rest
      (fun n hn => hmem n (List.mem_cons_of_mem _ hn)) hroom hf₁ hl₁
    refine ⟨l₂, ?_, hf₂, ?_, ?_⟩
    · unfold connectAll
      rw [hone]
      exact hrest
    · rwa [List.length_cons, Nat.add_comm rest.length, ← Nat.add_assoc]
    · rw [hsize₂]
      dsimp only
      rw [hsize₁, List.length_cons]
      omega

/-- If the tree has no room for all of them, one is refused. -/
theorem connectAll_treeFull (hnews : Unwitnessed old news) : ∀ (rest : List (Surroundings × Block))
    {f : Follower} {depth : Nat}, (∀ n ∈ rest, n ∈ news) →
    ¬ HasRoom ((rest.map (·.2)).reverse ++ f.blocks) → InStep (fun _ => True) f →
    Carried old news depth depth f.ledger → connectAll rest f = .error (.error .treeFull)
  | [], f, _, _, hroom, hf, _ => absurd hf.room hroom
  | (s, block) :: rest, f, depth, hmem, hroom, hf, hl => by
    rw [List.map_cons, List.reverse_cons, List.append_assoc, List.singleton_append] at hroom
    by_cases hnext : HasRoom (block :: f.blocks)
    · obtain ⟨l₁, hone, hf₁, hl₁, -⟩ := connectOne_spec hf hl hnews (hmem _ List.mem_cons_self)
        hnext
      refine (congrArg (· >>= connectAll rest) hone).trans ?_
      exact connectAll_treeFull hnews rest (fun n hn => hmem n (List.mem_cons_of_mem _ hn)) hroom
        hf₁ hl₁
    · exact congrArg (· >>= connectAll rest) (connectOne_treeFull hf hnext)

/-- And all of them less. -/
theorem disconnectAll_spec {blocks : List Block} : ∀ (above : List Block) {l : Ledger},
    above ≠ [] → InStep (fun _ => True) ⟨l, above ++ blocks⟩ →
    Carried old news reach above.length l → above.length ≤ l.cacheSize →
    ∃ l', disconnectAll above.length ⟨l, above ++ blocks⟩ = .ok ⟨l', blocks⟩ ∧
      Carried old news reach 0 l' ∧ l'.cacheSize = l.cacheSize - above.length ∧
      Ledger.ForNotes (fun _ _ d => d.witnessHeight = (blocks.length : Int) - 1) l'
  | [], _, hne, _, _, _ => absurd rfl hne
  | [block], l, _, hf, hl, hsize => by
    rw [List.length_singleton] at hsize
    obtain ⟨l', hone, -, hl', hsize', heights⟩ := disconnectOne_spec hf hl (by omega)
    refine ⟨l', ?_, hl', hsize', heights⟩
    exact congrArg (· >>= disconnectAll 0) hone
  | block :: next :: rest, l, _, hf, hl, hsize => by
    rw [List.length_cons] at hsize
    obtain ⟨l₁, hone, hf₁, hl₁, hsize₁, -⟩ := disconnectOne_spec hf hl (by omega)
    obtain ⟨l₂, hrest, hl₂, hsize₂, heights⟩ := disconnectAll_spec (next :: rest)
      (List.cons_ne_nil _ _) hf₁ hl₁ (by omega)
    refine ⟨l₂, ?_, hl₂, ?_, heights⟩
    · exact (congrArg (· >>= disconnectAll (next :: rest).length) hone).trans hrest
    · rw [hsize₂, hsize₁, List.length_cons (a := block)]
      omega

end

/-- At first every history is complete. -/
theorem InStep.carried {f : Follower} (hf : InStep (fun _ => True) f)
    (news : List (Surroundings × Block)) : Carried f.ledger news 0 0 f.ledger := by
  refine ⟨rfl, ⟨hf.witnessed.entries, fun hash e he location d hd => ?_⟩, fun _ hold _ => hold⟩
  obtain ⟨rfl, hkept⟩ := hf.witnessed.notes hash e he location d hd
  have here : f.ledger.note? location = some d := by
    unfold Ledger.note?
    rw [he]
    exact hd
  have bounded : d.witnesses.length ≤ f.ledger.settings.witnessLimit :=
    Nat.le_trans hkept.length_le hf.witnessed.cacheSize_le
  refine ⟨rfl, ?_⟩
  unfold Remains witnessesAt IsRemainder
  rw [here, List.drop_zero, Nat.sub_zero]
  exact (List.take_of_length_le bounded).symm

/-- Unwinding what was connected restores the witnesses. Some blocks are connected to a ledger in
step with its chain and disconnected again; they are no more than the limit, and no transaction in
them owns a note that holds a witness already. If the tree has no room for them, one of them is
refused. Otherwise this succeeds. A note that was held keeps its witnesses but for the oldest, as
many as the blocks needed room for, and its height is that of the tip again; only a note without
witnesses may be gone, if a transaction in the blocks has the hash of its record and the keys find
other notes in it. Notes that were not held end without witnesses, and the witness cache size has
shrunk by as much as the limit kept it from growing. -/
theorem unwind_restores {settings : Settings} {store : Store} {f : Follower}
    (hf : Reached (fun _ => True) settings store f) (news : List (Surroundings × Block))
    (hsome : news ≠ []) (hlimit : news.length ≤ f.ledger.settings.witnessLimit)
    (hnews : Unwitnessed f.ledger news) :
    (¬ HasRoom ((news.map (·.2)).reverse ++ f.blocks) →
      connectAll news f = .error (.error .treeFull)) ∧
    (HasRoom ((news.map (·.2)).reverse ++ f.blocks) →
      ∃ up down, connectAll news f = .ok up ∧ disconnectAll news.length up = .ok down ∧
        down.blocks = f.blocks ∧
        (∀ location d, f.ledger.note? location = some d →
          (∃ d', down.ledger.note? location = some d' ∧
            d'.witnesses = d.witnesses.take (f.ledger.settings.witnessLimit - news.length) ∧
            d'.witnessHeight = (f.blocks.length : Int) - 1) ∨
          d.witnesses = [] ∧ down.ledger.note? location = none ∧ Superseded news location) ∧
        (∀ location d', f.ledger.note? location = none → down.ledger.note? location = some d' →
          d'.witnesses = []) ∧
        down.ledger.cacheSize =
          min (f.ledger.cacheSize + news.length) f.ledger.settings.witnessLimit - news.length) := by
  have inStep := hf.inStep
  refine ⟨fun hroom => connectAll_treeFull hnews news (fun _ hn => hn) hroom inStep
    (inStep.carried news), fun hroom => ?_⟩
  have same : (news.map (·.2)).reverse.length = news.length := by
    rw [List.length_reverse, List.length_map]
  obtain ⟨up, hup, hf₁, hl₁, hsize₁⟩ := connectAll_spec hnews news (fun _ hn => hn) hroom inStep
    (inStep.carried news)
  rw [Nat.zero_add, ← same] at hl₁
  obtain ⟨down, hdown, hl₂, hsize₂, heights⟩ := disconnectAll_spec (news.map (·.2)).reverse
    (fun h => hsome (by simpa using h)) hf₁ hl₁ (by omega)
  rw [same] at hdown hsize₂ hl₂
  -- what the note at a location is in the end
  have final : ∀ {location d'}, down.note? location = some d' →
      d'.witnesses = (witnessesAt f.ledger location).take
        (f.ledger.settings.witnessLimit - news.length) ∧
      d'.witnessHeight = (f.blocks.length : Int) - 1 := by
    intro location d' hd'
    obtain ⟨-, hremains, hheight⟩ := (hl₂.holding.notes.and heights).note? hd'
    exact ⟨hremains, hheight⟩
  refine ⟨_, ⟨down, f.blocks⟩, hup, hdown, rfl, fun location d hd => ?_,
    fun location d' hd hd' => ?_, by rw [hsize₂, hsize₁]⟩
  · have hold : witnessesAt f.ledger location = d.witnesses := by
      unfold witnessesAt
      rw [hd]
      rfl
    cases hd' : down.note? location with
    | some d' =>
      rw [← hold]
      exact .inl ⟨d', rfl, final hd'⟩
    | none =>
      have gone : Superseded news location := by
        refine Classical.not_not.1 fun hnot => ?_
        have kept := hl₂.kept location (by rw [hd]; rfl) hnot
        rw [hd'] at kept
        cases kept
      obtain ⟨n, hn, tx, htx, hloc, -⟩ := id gone
      exact .inr ⟨hold.symm.trans (hnews n hn tx htx location hloc.symm), rfl, gone⟩
  · have hold : witnessesAt f.ledger location = [] := by
      unfold witnessesAt
      rw [hd]
      rfl
    rw [(final hd').1, hold, List.take_nil]

/-- A transaction that is not ours, and a block with it. -/
def foreign : Transaction := { TxBody.blank with lockTime := 1 }.freeze

/-- Another block is connected to the ledger with our note and disconnected again. The note has the
one witness that it had. -/
theorem unwind_restores_confirmed :
    Reached (fun _ => True) Settings.default Store.empty confirmed.2 ∧
      (witnessesAt confirmed.2.ledger exampleNote).length = 1 ∧
      ∃ up down, connectAll [(exampleSurroundings, blockOf foreign)] confirmed.2 = .ok up ∧
        disconnectAll 1 up = .ok down ∧ ∃ d', down.ledger.note? exampleNote = some d' ∧
          d'.witnesses = witnessesAt confirmed.2.ledger exampleNote ∧ d'.witnessHeight = 0 := by
  have room : HasRoom [blockOf foreign, blockOf (transparentWith 0x11 0x12)] := by
    rw [hasRoom_iff]
    decide +kernel
  have computed : (decide (confirmed.2.ledger.settings.witnessLimit = 100) &&
      (confirmed.2.ledger.note? exampleNote).any (fun d => d.witnesses.length == 1) &&
      (confirmed.2.ledger.entry? foreign.hash).all (fun e =>
        e.notes.values.all fun d => d.witnesses.isEmpty)) = true := by decide +kernel
  obtain ⟨h, bare⟩ := Bool.and_eq_true_iff.1 computed
  obtain ⟨hlimit, h⟩ := Bool.and_eq_true_iff.1 h
  obtain ⟨d, hd, single⟩ := (Option.any_eq_true _ _).1 h
  have limit : confirmed.2.ledger.settings.witnessLimit = 100 := of_decide_eq_true hlimit
  have single : d.witnesses.length = 1 := eq_of_beq single
  have unwitnessed : Unwitnessed confirmed.2.ledger [(exampleSurroundings, blockOf foreign)] := by
    refine unwitnessed_of_all fun n hn tx htx => ?_
    obtain rfl := List.mem_singleton.1 hn
    obtain rfl := List.mem_singleton.1 htx
    exact bare
  have hold : witnessesAt confirmed.2.ledger exampleNote = d.witnesses := by
    unfold witnessesAt
    rw [hd]
    rfl
  obtain ⟨up, down, hup, hdown, -, held, -⟩ := (unwind_restores reached_confirmed
    [(exampleSurroundings, blockOf foreign)] (List.cons_ne_nil _ _) (by rw [limit]; decide)
    unwitnessed).2 room
  rw [hold]
  refine ⟨reached_confirmed, single, up, down, hup, hdown, ?_⟩
  rcases held _ d hd with ⟨d', hd', hw, hh⟩ | ⟨hnone, -⟩
  · refine ⟨d', hd', ?_, hh⟩
    rw [hw, limit]
    exact List.take_of_length_le (by rw [single]; decide)
  · rw [hnone] at single
    cases single

/-- The place of the second note. -/
def secondNote : NoteLocation := { exampleNote with output := 1 }

/-- Our two notes are in a transaction that is announced. -/
def twoNotes : Follower :=
  (step { exampleSurroundings with
      keys := ((Simulation.Keys.fresh.addNote (Bytes.filled 32 0x11) default 5).addNote
        (Bytes.filled 32 0x12) default 5).view }
    (.announce (.transaction (transparentWith 0x11 0x12))) beginning).2

/-- A block with another transaction that has the same hash. -/
def namesake : Surroundings × Block := (exampleSurroundings, blockOf (transparentWith 0x11 0x21))

/-- A note without witnesses need not be held any more in the end: the keys find only the first note
in the transaction with the same hash. -/
theorem unwind_drops_namesake :
    Reached (fun _ => True) Settings.default Store.empty twoNotes ∧
      [namesake].length ≤ twoNotes.ledger.settings.witnessLimit ∧ HasRoom [namesake.2] ∧
      Unwitnessed twoNotes.ledger [namesake] ∧
      ∃ up down, connectAll [namesake] twoNotes = .ok up ∧ disconnectAll 1 up = .ok down ∧
        (twoNotes.ledger.note? secondNote).isSome ∧ down.ledger.note? secondNote = none := by
  have room : HasRoom [namesake.2] := by
    rw [hasRoom_iff]
    decide +kernel
  have computed : (decide ([namesake].length ≤ twoNotes.ledger.settings.witnessLimit) &&
      (twoNotes.ledger.note? secondNote).isSome &&
      (twoNotes.ledger.entry? (transparentWith 0x11 0x21).hash).all (fun e =>
        e.notes.values.all fun d => d.witnesses.isEmpty) &&
      (connectAll [namesake] twoNotes).toOption.any fun up =>
        (disconnectAll 1 up).toOption.any fun down =>
          (down.ledger.note? secondNote).isNone) = true := by decide +kernel
  obtain ⟨h, unwound⟩ := Bool.and_eq_true_iff.1 computed
  obtain ⟨h, bare⟩ := Bool.and_eq_true_iff.1 h
  obtain ⟨limit, held⟩ := Bool.and_eq_true_iff.1 h
  have unwitnessed : Unwitnessed twoNotes.ledger [namesake] := by
    refine unwitnessed_of_all fun n hn tx htx => ?_
    obtain rfl := List.mem_singleton.1 hn
    obtain rfl := List.mem_singleton.1 htx
    exact bare
  obtain ⟨up, hup, h⟩ := exists_ok_of_any unwound
  obtain ⟨down, hdown, gone⟩ := exists_ok_of_any h
  exact ⟨Reached.start.next _ trivial nofun, of_decide_eq_true limit, room, unwitnessed, up, down,
    hup, hdown, held, Option.isNone_iff_eq_none.1 gone⟩

end Follower
end ShieldedLedger
