import ShieldedLedger.Proofs.Rescan.Following

/-!
# Rescans that end early

A rescan replays old blocks, and a note that it finds is given the height of the block it has come
to. If the rescan ends before the tip, the note stays there, and the next chain update, which
expects the tip's height of every note, stops with a fault. So a run (`RunsTo`) remembers how far
the last scan has come: all heights that are set lie between there and the tip (`Between`).

An update stops with a fault exactly if a note is left behind, and never because of the number of
witnesses. A rescan that is taken up where the last one ended, or before, does not stop with a
fault, and one that comes to the tip leaves no note behind.
-/

namespace ShieldedLedger

/-! ## How an operation ends -/

/-- From every ledger with `I`, the operation succeeds and `ok` holds, or it is refused and
`refused` holds, or it stops with a fault, which needs `faulty`. -/
def Ends {α : Type} (I : Ledger → Prop) (op : LedgerOp α) (ok : α → Ledger → Prop)
    (refused : Ledger → Prop) (faulty : Prop) : Prop :=
  ∀ l, I l → match op l with
    | (.ok a, l') => ok a l'
    | (.error (.error _), l') => refused l'
    | (.error (.fault _), _) => faulty

namespace Ends

variable {α β : Type} {I refused refused' : Ledger → Prop} {ok : α → Ledger → Prop}
  {ok' : β → Ledger → Prop} {faulty : Prop}

theorem pure {a : α} (h : ∀ l, I l → ok a l) :
    Ends I (Pure.pure a : LedgerOp α) ok refused faulty := h

theorem refuse {e : LedgerError} (h : ∀ l, I l → refused l) :
    Ends I (LedgerOp.refuse e : LedgerOp α) ok refused faulty := h

/-- An operation that never stops with a fault leaves what it keeps. -/
theorem of_keeps {op : LedgerOp α} (hkeeps : Keeps I op) (hop : Faultless op) :
    Ends I op (fun _ => I) I faulty := by
  intro l hl
  have kept := hkeeps l hl
  have faultless := hop l
  split
  · next h =>
    rw [h] at kept
    exact kept
  · next h =>
    rw [h] at kept
    exact kept
  · next h =>
    rw [h] at faultless
    cases faultless

/-- A sequence ends where its first part ends, or goes on from there. -/
theorem bind {op : LedgerOp α} {f : α → LedgerOp β} {faulty' : Prop}
    (hop : Ends I op ok refused faulty) (hrefused : ∀ l, refused l → refused' l)
    (hfaulty : faulty → faulty') (hf : ∀ a, Ends (ok a) (f a) ok' refused' faulty') :
    Ends I (op >>= f) ok' refused' faulty' := by
  intro l hl
  have first := hop l hl
  cases h : op l with
  | mk outcome l₁ =>
    rw [h] at first
    cases outcome with
    | ok a =>
      rw [bind_of_ok h]
      exact hf a l₁ first
    | error failure =>
      rw [bind_of_error h]
      cases failure with
      | error e => exact hrefused _ first
      | fault fault => exact hfaulty first

end Ends

namespace Ledger

variable {l l' : Ledger} {lo tip : Int} {size : Nat} {d : NoteData}

/-! ## Heights between the last scan and the tip -/

/-- The note holds no more witnesses than are accounted for, and its height is not set or in the
range. -/
structure NoteBetween (lo tip : Int) (size : Nat) (d : NoteData) : Prop where
  length_le : d.witnesses.length ≤ size
  height : d.witnessHeight = -1 ∨ lo ≤ d.witnessHeight ∧ d.witnessHeight ≤ tip

namespace NoteBetween

/-- A new witness is opened. -/
theorem openWitness (hd : NoteBetween lo tip size d) {limit : Nat} (hsize : size ≤ limit) :
    NoteBetween lo tip (if size < limit then size + 1 else size) (d.openWitness limit) := by
  have short := hd.length_le
  unfold NoteData.openWitness
  cases hw : d.witnesses with
  | nil =>
    refine ⟨?_, hd.height⟩
    dsimp only
    rw [hw]
    exact Nat.zero_le _
  | cons newest older =>
    refine ⟨?_, hd.height⟩
    rw [hw, List.length_cons] at short
    dsimp only
    rw [List.length_take, List.length_cons, List.length_cons]
    split <;> omega

/-- A leaf makes the newest witness another one. -/
theorem appendLeaf? (hd : NoteBetween lo tip size d) {d' : NoteData} {leaf : Hash256}
    (h : d.appendLeaf? leaf = some d') : NoteBetween lo tip size d' := by
  unfold NoteData.appendLeaf? at h
  split at h
  · obtain rfl := Option.some.inj h
    exact hd
  · next newest older hw =>
    obtain ⟨grown, -, rfl⟩ := Option.map_eq_some_iff.1 h
    have short := hd.length_le
    rw [hw] at short
    exact ⟨short, hd.height⟩

/-- A note that is behind catches up. -/
theorem settle (hd : NoteBetween lo tip size d) {height : Int} (hpos : 0 ≤ height) :
    NoteBetween height (max tip height) size
      (if d.isBehind height then { d with witnessHeight := height } else d) := by
  split
  · exact ⟨hd.length_le, .inr ⟨Int.le_refl _, Int.le_max_right _ _⟩⟩
  · next hnot =>
    have ahead : ¬ d.witnessHeight < height := fun hlt => hnot (decide_eq_true hlt)
    refine ⟨hd.length_le, .inr ?_⟩
    rcases hd.height with hh | hh <;> omega

end NoteBetween

/-- All notes have heights in the range, if any. -/
structure Between (lo tip : Int) (l : Ledger) : Prop where
  /-- No more witnesses are accounted for than the settings allow. -/
  cacheSize_le : l.cacheSize ≤ l.settings.witnessLimit
  /-- Every note is as it should be. -/
  holding : Holding (fun _ => True) (fun _ _ => NoteBetween lo tip l.cacheSize) l

/-- The note has a height other than the tip's. -/
def LeftBehind (tip : Int) (d : NoteData) : Prop :=
  d.witnessHeight ≠ -1 ∧ d.witnessHeight ≠ tip

/-- A note in a range is in every wider one. -/
theorem NoteBetween.imp {lo' tip' : Int} (hd : NoteBetween lo tip size d) (hlo : lo' ≤ lo)
    (htip : tip ≤ tip') : NoteBetween lo' tip' size d :=
  ⟨hd.length_le, hd.height.imp_right fun h => ⟨by omega, by omega⟩⟩

/-- A range may be begun earlier. -/
theorem Between.imp {lo' : Int} (hl : Between lo tip l) (hlo : lo' ≤ lo) : Between lo' tip l :=
  ⟨hl.cacheSize_le, hl.holding.imp fun _ _ _ hd => hd.imp hlo (Int.le_refl _)⟩

/-- Nothing but its height can be wrong with a note. -/
theorem NoteBetween.fault? (hd : NoteBetween lo tip size d) (expected : Int) :
    d.fault? size expected = if d.witnessHeight ≠ -1 ∧ d.witnessHeight ≠ expected then
      some (.heightMismatch d.witnessHeight expected) else none := by
  unfold NoteData.fault?
  rw [if_neg (Nat.not_lt.2 hd.length_le)]

/-- An operation keeps the heights in the range if it keeps every note so, and what bounds the
number of witnesses. -/
theorem keeps_between {α : Type} {op : LedgerOp α}
    (holding : ∀ size, Keeps (Holding (fun _ => True) (fun _ _ => NoteBetween lo tip size)) op)
    (size : ∀ size, Keeps (fun l => l.cacheSize = size) op)
    (settings : ∀ settings, Keeps (fun l => l.settings = settings) op) :
    Keeps (Between lo tip) op := by
  intro l hl
  have hsize := size _ l rfl
  have hsettings := settings _ l rfl
  refine ⟨by rw [hsize, hsettings]; exact hl.cacheSize_le, ?_⟩
  rw [hsize]
  exact holding _ l hl.holding

/-- Whether a note is in a range is about its witnesses and their height alone. -/
theorem ofWitnesses_noteBetween (lo tip : Int) (size : Nat) :
    OfWitnesses fun _ _ => NoteBetween lo tip size := fun _ _ _ _ hw hh hd =>
  ⟨by rw [hw]; exact hd.length_le, by rw [hh]; exact hd.height⟩

/-- A note that is found has no height yet. -/
theorem noteBetween_of_found {keys : KeyView} {r : Record} (location : NoteLocation) (d : NoteData)
    (hd : (r.findNotes keys).get? location = some d) (_ : Record) : NoteBetween lo tip size d := by
  obtain ⟨-, hw, hh⟩ := isFound_findNotes hd
  exact ⟨by rw [hw]; exact Nat.zero_le _, .inl hh⟩

/-- Syncing a record keeps the heights in their range. -/
theorem keeps_between_sync (s : Surroundings) (r : Record) (block : Option Block) :
    Keeps (Between lo tip) (sync s.keys s.chain.toChainView s.now r block) :=
  keeps_between
    (fun size => keeps_holding_sync _ _ _ trivial (ofWitnesses_noteBetween lo tip size)
      noteBetween_of_found block)
    (keeps_cacheSize_sync _ _ _ block) (keeps_settings_sync _ _ _ block)

/-- Scanning the records of a block keeps the heights in their range. -/
theorem keeps_between_scanRecords (keys : KeyView) (view : ChainView) (now : Int64) (block : Block)
    (update : Bool) : Keeps (Between lo tip) (scanRecords keys view now block update) := by
  refine Keeps.foldlM (fun added r => Keeps.bind ?_ fun _ => Keeps.pure _) _ _
  exact keeps_between
    (fun size => keeps_holding_addIfRelevant _ _ _ trivial (ofWitnesses_noteBetween lo tip size)
      noteBetween_of_found (some block) update)
    (keeps_cacheSize_addIfRelevant _ _ _ _ update) (keeps_settings_addIfRelevant _ _ _ _ update)

/-- Scanning the records of a block stops with no fault. -/
theorem faultless_scanRecords (keys : KeyView) (view : ChainView) (now : Int64) (block : Block)
    (update : Bool) : Faultless (scanRecords keys view now block update) :=
  Faultless.foldlM (fun _ _ => Faultless.bind (Faultless.addIfRelevant _ _ _ _ _ _) fun _ =>
    Faultless.answer _) _ _

/-! ## One block -/

/-- What stands in the way of a block is a note whose height is not the one before it. -/
theorem Between.of_connectFault? (hl : Between lo tip l) {height : Int} {fault : WitnessFault}
    (h : l.connectFault? height = some fault) :
    ∃ d ∈ l.notes, d.witnessHeight < height ∧ LeftBehind (height - 1) d ∧
      lo ≤ d.witnessHeight ∧ fault = .heightMismatch d.witnessHeight (height - 1) := by
  obtain ⟨d, hd, hfault⟩ := List.exists_of_findSome?_eq_some h
  obtain ⟨hmem, hbehind⟩ := List.mem_filter.1 hd
  obtain ⟨_, _, hbetween⟩ := hl.holding.notes.mem hmem
  rw [hbetween.fault?] at hfault
  split at hfault
  · next hleft =>
    obtain rfl := Option.some.inj hfault
    exact ⟨d, hmem, of_decide_eq_true hbehind, hleft,
      (hbetween.height.resolve_left hleft.1).1, rfl⟩
  · cases hfault

/-- A block at most one above the tip is connected. All heights are there or above it then. If the
tree is full, a note may be left at the height before. Only a note from further below stands in the
way. -/
theorem ends_connect {height : Int} (hpos : 0 ≤ height) (htip : height ≤ tip + 1) (tree : NoteTree)
    {index : BlockIndex} (hindex : index.height = height) (block : Block) :
    Ends (Between lo tip) (tipOn tree (chainTip index block true))
      (fun _ => Between height (max tip height)) (Between (min lo (height - 1)) tip)
      (lo < height - 1) := by
  subst hindex
  intro l hl
  have limit := l.settings.witnessLimit_pos
  have bounded := hl.cacheSize_le
  have size : (l.openWitnesses index.height).cacheSize =
      if l.cacheSize < l.settings.witnessLimit then l.cacheSize + 1 else l.cacheSize := rfl
  -- however the walk over the leaves ends, no height is below the one before
  have walked : ∀ {outcome s₁}, block.noteLeaves.forM (appendBlockLeaf index.height)
      ⟨l.openWitnesses index.height, tree⟩ = (outcome, s₁) →
      Between (min lo (index.height - 1)) tip s₁.ledger := by
    intro outcome s₁ hwalk
    obtain ⟨holding, hsize, hsettings⟩ := hl.holding.forM_appendBlockLeaf
      (Q := fun _ _ => NoteBetween (min lo (index.height - 1)) tip
        (l.openWitnesses index.height).cacheSize) tree
      (fun _ _ d hd => by
        have opened := hd.openWitness bounded
        rw [← size] at opened
        have wider : l.cacheSize ≤ (l.openWitnesses index.height).cacheSize := by
          rw [size]
          split <;> omega
        split
        · exact opened.imp (Int.min_le_left _ _) (Int.le_refl _)
        · exact ⟨Nat.le_trans hd.length_le wider,
            (hd.imp (Int.min_le_left _ _) (Int.le_refl _)).height⟩)
      (fun _ _ _ _ _ hd happend => hd.appendLeaf? happend)
      (fun leaf _ _ d w _ => by
        refine ⟨?_, .inr ⟨Int.min_le_right _ _, ?_⟩⟩
        · show 1 ≤ _
          rw [size]
          split <;> omega
        · show index.height - 1 ≤ tip
          omega) hwalk
    refine ⟨?_, by rwa [hsize]⟩
    rw [hsize, hsettings, size]
    split <;> omega
  rw [tipOn_connect]
  rcases connectBlock_cases index.height block ⟨l, tree⟩ with
    ⟨fault, hfault, h⟩ | ⟨-, outcome, s₁, hwalk, ⟨-, h⟩ | ⟨-, h⟩⟩
  · rw [h]
    obtain ⟨d, -, hbehind, hleft, hlo, -⟩ := hl.of_connectFault? hfault
    have := hleft.2
    dsimp only
    omega
  · rw [h]
    have hs₁ := walked hwalk
    refine ⟨hs₁.cacheSize_le, hs₁.holding.of_notes (agree_mapNotes (fun _ _ _ => rfl) _) ?_⟩
    exact hs₁.holding.notes.mapNotes fun _ _ _ hd => hd.settle hpos
  · rw [h]
    exact walked hwalk

/-- What stands in the way of going back from the tip is that no witness is accounted for any more,
or a note whose height is not the tip's. -/
theorem Between.of_disconnectFault? (hl : Between lo tip l) {fault : WitnessFault}
    (h : l.disconnectFault? tip = some fault) :
    l.cacheSize = 0 ∧ fault = .cacheUnderflow tip ∨
      ∃ d ∈ l.notes, LeftBehind tip d ∧ fault = .heightMismatch d.witnessHeight tip := by
  unfold disconnectFault? at h
  split at h
  · next hsize => exact .inl ⟨hsize, (Option.some.inj h).symm⟩
  · obtain ⟨d, hd, hfault⟩ := List.exists_of_findSome?_eq_some h
    have hmem := (List.mem_filter.1 hd).1
    obtain ⟨_, _, hbetween⟩ := hl.holding.notes.mem hmem
    rw [hbetween.fault?] at hfault
    split at hfault
    · next hleft => exact .inr ⟨d, hmem, hleft, (Option.some.inj hfault).symm⟩
    · cases hfault

/-- The tip is disconnected. All heights are those of the new tip then. -/
theorem ends_disconnect (htip : -1 ≤ tip) (tree : NoteTree) {index : BlockIndex}
    (hindex : index.height = tip) (block : Block) :
    Ends (Between lo tip) (tipOn tree (chainTip index block false))
      (fun _ => Between (tip - 1) (tip - 1)) (fun _ => False) True := by
  subst hindex
  intro l hl
  rw [tipOn_disconnect]
  rcases disconnectBlock_cases index.height l with ⟨fault, -, h⟩ | ⟨-, h⟩
  · rw [h]
    trivial
  · rw [h]
    have bounded := hl.cacheSize_le
    refine ⟨?_, hl.holding.of_notes (agree_dropWitnesses (fun _ _ _ => rfl) _) ?_⟩
    · show l.cacheSize - 1 ≤ l.settings.witnessLimit
      omega
    · refine ForNotes.of_entries (l := l.mapNotes _)
        (hl.holding.notes.mapNotes fun _ _ d hd => ?_) rfl
      have behind : d.isBehind (index.height + 1) = true := by
        refine decide_eq_true ?_
        rcases hd.height with hh | hh <;> omega
      rw [if_pos behind]
      have short := hd.length_le
      refine ⟨?_, .inr ⟨Int.le_refl _, Int.le_refl _⟩⟩
      show (d.witnesses.drop 1).length ≤ l.cacheSize - 1
      rw [List.length_drop]
      omega

/-! ## Rescans -/

/-- What a rescan is shown of a chain whose tip is at a height: blocks at their own heights. -/
structure ShowsHeights (source : ChainSource) (tip : Int) : Prop where
  tipHeight : source.tipHeight = tip
  height : ∀ height index block, source.blockAt? height = some (index, block) →
    index.height = height

section
variable {keys : KeyView} {view : ChainView} {now : Int64} {source : ChainSource}
  {request : ScanRequest}

/-- One block of a rescan. -/
theorem ends_scanBlock {height : Int} (hpos : 0 ≤ height) (htip : height ≤ tip)
    {index : BlockIndex} (hindex : index.height = height) (block : Block) (update : Bool) :
    Ends (Between lo tip) (scanBlock keys view now source index block height update)
      (fun _ => Between height tip) (Between (min lo (height - 1)) tip) (lo < height - 1) := by
  have lower : ∀ l, Between lo tip l → Between (min lo (height - 1)) tip l :=
    fun _ hl => hl.imp (Int.min_le_left _ _)
  unfold scanBlock
  refine Ends.bind (Ends.of_keeps (keeps_between_scanRecords _ _ _ _ _)
    (faultless_scanRecords _ _ _ _ _)) lower id fun added => ?_
  split
  · exact Ends.refuse lower
  · next tree _ =>
    have connected : Ends (Between lo tip) _ _ _ _ := ends_connect hpos (by omega) tree hindex block
    rw [Int.max_eq_left htip] at connected
    exact Ends.bind connected (fun _ h => h) id fun _ => Ends.pure fun _ h => h

/-- A rescan from `start` leaves no height below the last block that it has dealt with, and if it is
refused none below both the heights before and the block before the first. -/
theorem ends_scanFrom {start reach : Int} (hstart : 0 ≤ start)
    (hshows : ShowsHeights source tip) : ∀ (count : Nat) (height : Int) (summary : ScanSummary),
    start ≤ height → height + count ≤ max (tip + 1) height →
    (∀ last, summary.lastHeight = some last → start ≤ last) →
    summary.lastHeight.getD reach ≤ tip →
    Ends (Between (summary.lastHeight.getD reach) tip)
      (scanFrom keys view now source request count height summary)
      (fun summary' l => Between (summary'.lastHeight.getD reach) tip l ∧
        summary'.lastHeight.getD reach ≤ tip)
      (Between (min reach (start - 1)) tip) True
  | 0, _, _, _, _, _, hbound => Ends.pure fun _ h => ⟨h, hbound⟩
  | count + 1, height, summary, hle, hcount, hlast, hbound => by
    have lowest : min reach (start - 1) ≤ summary.lastHeight.getD reach := by
      cases hs : summary.lastHeight with
      | none => exact Int.min_le_left _ _
      | some last =>
        have := hlast last hs
        rw [Option.getD_some]
        omega
    rw [Int.natCast_add, Int.natCast_one] at hcount
    unfold scanFrom
    split
    · exact Ends.pure fun _ h => ⟨h, hbound⟩
    split
    · exact Ends.refuse fun _ hl => hl.imp lowest
    next index block hblock =>
    split
    -- A block from before the oldest key is passed over, and the last height stays.
    · exact ends_scanFrom hstart hshows count (height + 1) summary (by omega) (by omega) hlast
        hbound
    · refine Ends.bind (ends_scanBlock (by omega) (by omega) (hshows.height _ _ _ hblock) block
        request.update) (fun _ hl => hl.imp (by omega)) (fun _ => trivial) fun added => ?_
      refine ends_scanFrom hstart hshows count (height + 1)
        { summary with added := summary.added ++ added, lastHeight := some height } (by omega)
        (by omega) (fun last h => ?_) (show height ≤ tip by omega)
      obtain rfl := Option.some.inj h
      exact hle

/-- If no height is below the block before the first, and no block is passed over, nothing stands in
the way of a rescan, and none is below the tip when it has come there. -/
theorem ends_scanFrom_resumed (hshows : ShowsHeights source tip)
    (hkeys : ∀ height index block, source.blockAt? height = some (index, block) →
      isBeforeKeys keys index = false) :
    ∀ (count : Nat) {lo : Int} (height : Int) (summary : ScanSummary), 0 ≤ height →
    height + count = tip + 1 → height ≤ lo + 1 → lo ≤ tip →
    Ends (Between lo tip) (scanFrom keys view now source request count height summary)
      (fun summary' l => summary'.interrupted = false → Between tip tip l) (fun _ => True) False
  | 0, lo, height, _, _, hcount, hheight, hlo => by
    obtain rfl : lo = tip := by omega
    exact Ends.pure fun _ hl _ => hl
  | count + 1, lo, height, summary, hpos, hcount, hheight, hlo => by
    rw [Int.natCast_add, Int.natCast_one] at hcount
    unfold scanFrom
    split
    · exact Ends.pure fun _ _ h => Bool.noConfusion h
    split
    · exact Ends.refuse fun _ _ => trivial
    next index block hblock =>
    rw [hkeys height index block hblock, if_neg Bool.false_ne_true]
    refine Ends.bind (ends_scanBlock hpos (by omega) (hshows.height _ _ _ hblock) block
      request.update) (fun _ _ => trivial) (by omega) fun added => ?_
    exact ends_scanFrom_resumed hshows hkeys count (height + 1) _ (by omega) (by omega) (by omega)
      (by omega)

end

/-! ## Runs -/

/-- What a run leads to in which no update has stopped with a fault: the ledger, the height of the
chain's tip and the height that the last scan has come to. The keys may be others at each step. -/
inductive RunsTo (settings : Settings) (store : Store) : Ledger → Int → Int → Prop
  /-- A run starts from an empty ledger beside an empty chain. -/
  | start : RunsTo settings store (empty settings store) (-1) (-1)
  /-- A record is seen, in a block or unconfirmed. -/
  | sync {l : Ledger} {tip reach : Int} (s : Surroundings) (r : Record) (block : Option Block) :
    RunsTo settings store l tip reach →
    RunsTo settings store (Ledger.sync s.keys s.chain.toChainView s.now r block l).2 tip reach
  /-- The next block is connected. -/
  | connect {l l' : Ledger} {tip reach : Int} (tree : NoteTree) (index : BlockIndex)
    (block : Block) : RunsTo settings store l tip reach → index.height = tip + 1 →
    tipOn tree (chainTip index block true) l = (.ok (), l') →
    RunsTo settings store l' (tip + 1) (tip + 1)
  /-- The tip is disconnected. -/
  | disconnect {l l' : Ledger} {tip reach : Int} (tree : NoteTree) (index : BlockIndex)
    (block : Block) : RunsTo settings store l tip reach → 0 ≤ tip → index.height = tip →
    tipOn tree (chainTip index block false) l = (.ok (), l') →
    RunsTo settings store l' (tip - 1) (tip - 1)
  /-- The chain is scanned, up to the tip or not. -/
  | rescan {l l' : Ledger} {tip reach : Int} (s : Surroundings) (request : ScanRequest)
    (summary : ScanSummary) : RunsTo settings store l tip reach → ShowsHeights s.chain tip →
    Ledger.rescan s.keys s.chain.toChainView s.now s.chain request l = (.ok summary, l') →
    RunsTo settings store l' tip (summary.lastHeight.getD reach)
  /-- A scan of the chain is refused when it comes to some block. -/
  | refused {l l' : Ledger} {tip reach : Int} (s : Surroundings) (request : ScanRequest)
    (e : LedgerError) : RunsTo settings store l tip reach → ShowsHeights s.chain tip →
    Ledger.rescan s.keys s.chain.toChainView s.now s.chain request l = (.error (.error e), l') →
    RunsTo settings store l' tip (min reach (max request.start 0 - 1))

variable {settings : Settings} {store : Store} {reach : Int}

/-- An empty ledger has no notes with heights. -/
theorem between_empty : Between (-1) (-1) (empty settings store) :=
  ⟨Nat.zero_le _, ⟨fun _ _ he => (nomatch he), fun _ _ he => (nomatch he)⟩⟩

/-- A rescan, from wherever it starts. -/
theorem ends_rescan (s : Surroundings) (request : ScanRequest) (hreach : reach ≤ tip)
    (hshows : ShowsHeights s.chain tip) :
    Ends (Between reach tip)
      (Ledger.rescan s.keys s.chain.toChainView s.now s.chain request)
      (fun summary l => Between (summary.lastHeight.getD reach) tip l ∧
        summary.lastHeight.getD reach ≤ tip)
      (Between (min reach (max request.start 0 - 1)) tip) True := by
  unfold Ledger.rescan
  rw [hshows.tipHeight]
  exact ends_scanFrom (by omega) hshows _ (max request.start 0) ⟨[], none, false⟩ (Int.le_refl _)
    (by omega) nofun hreach

/-- What every step keeps: all heights are between the last scan and the tip. -/
theorem RunsTo.between (hl : RunsTo settings store l tip reach) :
    Between reach tip l ∧ -1 ≤ tip ∧ reach ≤ tip := by
  induction hl with
  | start => exact ⟨between_empty, Int.le_refl _, Int.le_refl _⟩
  | sync s r block _ ih => exact ⟨keeps_between_sync s r block _ ih.1, ih.2⟩
  | @connect l l' tip reach tree index block _ hindex hok ih =>
    have ended := ends_connect (by omega) (Int.le_refl (tip + 1)) tree hindex block l ih.1
    rw [hok] at ended
    dsimp only at ended
    rw [Int.max_eq_right (by omega)] at ended
    exact ⟨ended, by omega, Int.le_refl _⟩
  | @disconnect l l' tip reach tree index block _ hpos hindex hok ih =>
    have ended := ends_disconnect ih.2.1 tree hindex block l ih.1
    rw [hok] at ended
    exact ⟨ended, by omega, Int.le_refl _⟩
  | @rescan l l' tip reach s request summary _ hshows hok ih =>
    have ended := ends_rescan s request ih.2.2 hshows l ih.1
    rw [hok] at ended
    exact ⟨ended.1, ih.2.1, ended.2⟩
  | @refused l l' tip reach s request e _ hshows hok ih =>
    have ended := ends_rescan s request ih.2.2 hshows l ih.1
    rw [hok] at ended
    exact ⟨ended, ih.2.1, by omega⟩

/-- A rescan from the block after the last one dealt with, or before. -/
theorem ends_rescan_resumed (s : Surroundings) (request : ScanRequest) (hreach : reach ≤ tip)
    (hshows : ShowsHeights s.chain tip)
    (hkeys : ∀ height index block, s.chain.blockAt? height = some (index, block) →
      isBeforeKeys s.keys index = false) (hstart : max request.start 0 ≤ reach + 1) :
    Ends (Between reach tip)
      (Ledger.rescan s.keys s.chain.toChainView s.now s.chain request)
      (fun summary l => summary.interrupted = false → Between tip tip l) (fun _ => True) False := by
  unfold Ledger.rescan
  rw [hshows.tipHeight]
  exact ends_scanFrom_resumed hshows hkeys _ (max request.start 0) ⟨[], none, false⟩ (by omega)
    (by omega) hstart hreach

/-! ## Faults -/

/-- Connecting a block stops with a fault if the notes do not fit, and only then. -/
theorem faultOf_connect (l : Ledger) (tree : NoteTree) (index : BlockIndex) (block : Block) :
    faultOf (tipOn tree (chainTip index block true) l).1 = l.connectFault? index.height := by
  rw [tipOn_connect]
  rcases connectBlock_cases index.height block ⟨l, tree⟩ with
    ⟨fault, hfault, h⟩ | ⟨hfault, outcome, s₁, -, ⟨-, h⟩ | ⟨-, h⟩⟩
  · rw [h, hfault]
    rfl
  · rw [h, hfault]
    rfl
  · rw [h, hfault]
    rfl

/-- Disconnecting a block stops with the fault that the ledger has for it, if there is one. -/
theorem faultOf_disconnect (l : Ledger) (tree : NoteTree) (index : BlockIndex) (block : Block) :
    faultOf (tipOn tree (chainTip index block false) l).1 = l.disconnectFault? index.height := by
  rw [tipOn_disconnect]
  rcases disconnectBlock_cases index.height l with ⟨fault, hfault, h⟩ | ⟨hfault, h⟩
  · rw [h, hfault]
    rfl
  · rw [h, hfault]
    rfl

/-- The notes that are listed are those that are found at some location. -/
theorem Between.mem_notes_iff (hl : Between lo tip l) :
    d ∈ l.notes ↔ ∃ location, l.note? location = some d := by
  constructor
  · intro hd
    obtain ⟨e, he, hd⟩ := List.mem_flatMap.1 hd
    obtain ⟨hash, he⟩ := SortedMap.mem_values_iff.1 he
    obtain ⟨location, hd⟩ := SortedMap.mem_values_iff.1 hd
    obtain ⟨rfl, -⟩ := hl.holding.notes hash e he location d hd
    have found : l.entry? location.hash = some e := he
    refine ⟨location, ?_⟩
    unfold note?
    rw [found]
    exact hd
  · rintro ⟨location, hd⟩
    obtain ⟨e, he, hd⟩ := Option.bind_eq_some_iff.1 hd
    exact List.mem_flatMap.2 ⟨e, SortedMap.mem_values_iff.2 ⟨_, he⟩,
      SortedMap.mem_values_iff.2 ⟨_, hd⟩⟩

/-- Somewhere there is a note with a height other than the tip's. -/
def AnyLeftBehind (l : Ledger) (tip : Int) : Prop :=
  ∃ location d, l.note? location = some d ∧ LeftBehind tip d

/-- Of the notes up to the tip's height, those that are left behind do not fit an update. -/
theorem Between.findSome?_fault? (hl : Between lo tip l) (hpos : -1 ≤ tip) :
    (l.notes.filter (·.isBehind (tip + 1))).findSome? (fun d => d.fault? l.cacheSize tip) ≠ none ↔
      l.AnyLeftBehind tip := by
  have wrong : ∀ {d}, d ∈ l.notes →
      (d.fault? l.cacheSize tip ≠ none ↔ LeftBehind tip d) := by
    intro d hd
    obtain ⟨_, _, hbetween⟩ := hl.holding.notes.mem hd
    rw [hbetween.fault?]
    unfold LeftBehind
    split <;> simp [*]
  have behind : ∀ {d}, d ∈ l.notes → d.isBehind (tip + 1) = true := by
    intro d hd
    obtain ⟨_, _, hbetween⟩ := hl.holding.notes.mem hd
    refine decide_eq_true ?_
    rcases hbetween.height with hh | hh <;> omega
  constructor
  · intro h
    obtain ⟨fault, hfault⟩ := Option.ne_none_iff_exists'.1 h
    obtain ⟨d, hd, hfault⟩ := List.exists_of_findSome?_eq_some hfault
    have hmem := (List.mem_filter.1 hd).1
    obtain ⟨location, hnote⟩ := hl.mem_notes_iff.1 hmem
    exact ⟨location, d, hnote, (wrong hmem).1 (by rw [hfault]; exact nofun)⟩
  · rintro ⟨location, d, hd, hleft⟩ hnone
    have hmem := hl.mem_notes_iff.2 ⟨location, hd⟩
    exact (wrong hmem).2 hleft
      (List.findSome?_eq_none_iff.1 hnone d (List.mem_filter.2 ⟨hmem, behind hmem⟩))

/-- The next block stops with a fault exactly if a note is left behind, and because of its
height. -/
theorem RunsTo.faultOf_connect (hl : RunsTo settings store l tip reach) (tree : NoteTree)
    {index : BlockIndex} (hindex : index.height = tip + 1) (block : Block) :
    (faultOf (tipOn tree (chainTip index block true) l).1 ≠ none ↔ l.AnyLeftBehind tip) ∧
      ∀ fault, faultOf (tipOn tree (chainTip index block true) l).1 = some fault →
        ∃ found, fault = .heightMismatch found tip := by
  obtain ⟨hbetween, htip, -⟩ := hl.between
  rw [Ledger.faultOf_connect, hindex]
  have same : l.connectFault? (tip + 1) =
      (l.notes.filter (·.isBehind (tip + 1))).findSome? fun d => d.fault? l.cacheSize tip := by
    unfold connectFault?
    rw [Int.add_sub_cancel]
  refine ⟨by rw [same]; exact hbetween.findSome?_fault? htip, fun fault h => ?_⟩
  obtain ⟨d, -, -, -, -, rfl⟩ := hbetween.of_connectFault? h
  rw [Int.add_sub_cancel]
  exact ⟨_, rfl⟩

/-- Going back from the tip does, too, or if no witness is accounted for any more. -/
theorem RunsTo.faultOf_disconnect (hl : RunsTo settings store l tip reach) (tree : NoteTree)
    {index : BlockIndex} (hindex : index.height = tip) (block : Block) :
    (faultOf (tipOn tree (chainTip index block false) l).1 ≠ none ↔
        l.cacheSize = 0 ∨ l.AnyLeftBehind tip) ∧
      ∀ fault, faultOf (tipOn tree (chainTip index block false) l).1 = some fault →
        l.cacheSize = 0 ∧ fault = .cacheUnderflow tip ∨
          ∃ found, fault = .heightMismatch found tip := by
  obtain ⟨hbetween, htip, -⟩ := hl.between
  rw [Ledger.faultOf_disconnect, hindex]
  refine ⟨?_, fun fault h => (hbetween.of_disconnectFault? h).imp_right fun ⟨_, _, _, h⟩ => ⟨_, h⟩⟩
  unfold disconnectFault?
  by_cases hsize : l.cacheSize = 0
  · rw [if_pos hsize]
    exact ⟨fun _ => .inl hsize, fun _ => nofun⟩
  · rw [if_neg hsize, or_iff_right hsize]
    exact hbetween.findSome?_fault? htip

/-- A rescan that is taken up where the last one ended does not stop with a fault, and if it comes
to the tip no note is left behind. -/
theorem RunsTo.rescan_resumed (hl : RunsTo settings store l tip reach) (s : Surroundings)
    (request : ScanRequest) (hshows : ShowsHeights s.chain tip)
    (hkeys : ∀ height index block, s.chain.blockAt? height = some (index, block) →
      isBeforeKeys s.keys index = false) (hstart : max request.start 0 ≤ reach + 1)
    {outcome : Except Failure ScanSummary}
    (hended : Ledger.rescan s.keys s.chain.toChainView s.now s.chain request l = (outcome, l')) :
    faultOf outcome = none ∧
      ∀ summary, outcome = .ok summary → summary.interrupted = false → ¬ l'.AnyLeftBehind tip := by
  obtain ⟨hbetween, -, hreach⟩ := hl.between
  have ended := ends_rescan_resumed s request hreach hshows hkeys hstart l hbetween
  rw [hended] at ended
  refine ⟨?_, ?_⟩
  · cases outcome with
    | ok summary => rfl
    | error failure =>
      cases failure with
      | error e => rfl
      | fault fault => exact absurd ended id
  · rintro summary rfl hdone ⟨location, d, hd, hne, hne'⟩
    obtain ⟨_, hh⟩ := (ended hdone).holding.notes.note? hd
    have := hh.height
    omega

/-- What stops an update. After a run in which nothing has stopped with a fault, every note holds as
many witnesses as are accounted for at most, and its height, if it is set, is between the last scan
and the tip. The next block stops with a fault exactly if a note is left behind, and going back from
the tip if one is or no witness is accounted for any more; the number of witnesses never is the
reason. A rescan that starts at the block after the last scan or before it, and passes no block
over, does not stop with a fault, and if it comes to the tip no note is left behind. -/
theorem fault_iff_anyLeftBehind (hl : RunsTo settings store l tip reach) :
    (∀ location d, l.note? location = some d → NoteBetween reach tip l.cacheSize d) ∧
    (∀ (tree : NoteTree) (index : BlockIndex) (block : Block), index.height = tip + 1 →
      (faultOf (tipOn tree (chainTip index block true) l).1 ≠ none ↔ l.AnyLeftBehind tip) ∧
      ∀ fault, faultOf (tipOn tree (chainTip index block true) l).1 = some fault →
        ∃ found, fault = .heightMismatch found tip) ∧
    (∀ (tree : NoteTree) (index : BlockIndex) (block : Block), index.height = tip →
      (faultOf (tipOn tree (chainTip index block false) l).1 ≠ none ↔
        l.cacheSize = 0 ∨ l.AnyLeftBehind tip) ∧
      ∀ fault, faultOf (tipOn tree (chainTip index block false) l).1 = some fault →
        l.cacheSize = 0 ∧ fault = .cacheUnderflow tip ∨
          ∃ found, fault = .heightMismatch found tip) ∧
    ∀ (s : Surroundings) (request : ScanRequest), ShowsHeights s.chain tip →
      (∀ height index block, s.chain.blockAt? height = some (index, block) →
        isBeforeKeys s.keys index = false) → max request.start 0 ≤ reach + 1 →
      ∀ outcome l', Ledger.rescan s.keys s.chain.toChainView s.now s.chain request l =
        (outcome, l') → faultOf outcome = none ∧
          ∀ summary, outcome = .ok summary → summary.interrupted = false →
            ¬ l'.AnyLeftBehind tip := by
  refine ⟨fun location d hd => ?_, fun tree _ block hindex => hl.faultOf_connect tree hindex block,
    fun tree _ block hindex => hl.faultOf_disconnect tree hindex block,
    fun s request hshows hkeys hstart _ _ hended =>
      hl.rescan_resumed s request hshows hkeys hstart hended⟩
  obtain ⟨_, h⟩ := hl.between.1.holding.notes.note? hd
  exact h

/-! ## An interrupted scan -/

/-- The source of some blocks shows them at their own heights. -/
theorem showsHeights_ofBlocks (blocks : List Block) :
    ShowsHeights (ChainSource.ofBlocks blocks) ((blocks.length : Int) - 1) := by
  refine ⟨rfl, fun height index block h => ?_⟩
  simp only [ChainSource.ofBlocks] at h
  split at h
  · cases h
  · obtain ⟨b, -, h⟩ := Option.map_eq_some_iff.1 h
    obtain ⟨rfl, -⟩ := Prod.mk.inj h
    rfl

/-- Moves the tip to a block after those before it. -/
def connectAfter (before : List Block) (block : Block) : LedgerOp Unit :=
  tipOn (treeAfter before) (chainTip ⟨before.length, block.hash, block.time⟩ block true)

/-- The keys know nothing of the note when its transaction is seen. -/
def unrecognized : Ledger :=
  (sync Simulation.Keys.fresh.view (ChainSource.ofBlocks [exampleBlock]).toChainView 0
    (.transaction (Follower.transparentWith 0x11 0x12)) (some exampleBlock)
    (empty Settings.default Store.empty)).2

/-- The block with the transaction and one without records are followed. -/
def twoFollowed : Except Failure Unit × Ledger :=
  connectAfter [exampleBlock] emptyBlock (connectAfter [] exampleBlock unrecognized).2

/-- Then the note is ours, and the chain is scanned from its first block on, but not the second. -/
def interrupted : Except Failure ScanSummary × Ledger :=
  let source := ChainSource.ofBlocks [exampleBlock, emptyBlock]
  rescan Follower.exampleSurroundings.keys source.toChainView 0 source
    ⟨0, false, fun height => height == 1⟩ twoFollowed.2

/-- The scan leaves the note behind, and the third block stops with a fault. -/
theorem fault_iff_anyLeftBehind_interrupted :
    RunsTo Settings.default Store.empty interrupted.2 1 0 ∧ interrupted.2.AnyLeftBehind 1 ∧
      ∃ found, faultOf (connectAfter [emptyBlock, exampleBlock] repeatedBlock interrupted.2).1 =
        some (.heightMismatch found 1) := by
  have computed : ((connectAfter [] exampleBlock unrecognized).1.toOption.any (· == ()) &&
      twoFollowed.1.toOption.any (· == ()) &&
      interrupted.1.toOption.any (fun summary => summary.lastHeight == some 0) &&
      (interrupted.2.note? Follower.exampleNote).any fun d => d.witnessHeight == 0) = true := by
    decide +kernel
  obtain ⟨h, left⟩ := Bool.and_eq_true_iff.1 computed
  obtain ⟨h, scanned⟩ := Bool.and_eq_true_iff.1 h
  obtain ⟨first, second⟩ := Bool.and_eq_true_iff.1 h
  obtain ⟨⟨⟩, first, -⟩ := exists_ok_of_any first
  obtain ⟨⟨⟩, second, -⟩ := exists_ok_of_any second
  obtain ⟨summary, scanned, reach⟩ := exists_ok_of_any scanned
  have run : RunsTo Settings.default Store.empty twoFollowed.2 1 1 :=
    ((RunsTo.start.sync ⟨_, ChainSource.ofBlocks [exampleBlock], 0⟩ _ _).connect (treeAfter [])
      ⟨0, exampleBlock.hash, exampleBlock.time⟩ exampleBlock rfl (Prod.ext first rfl)).connect
      (treeAfter [exampleBlock]) ⟨1, emptyBlock.hash, emptyBlock.time⟩ emptyBlock rfl
      (Prod.ext second rfl)
  have run : RunsTo Settings.default Store.empty interrupted.2 1 0 := by
    have run := run.rescan ⟨Follower.exampleSurroundings.keys, _, 0⟩ _ _
      (showsHeights_ofBlocks [exampleBlock, emptyBlock]) (Prod.ext scanned rfl)
    rwa [eq_of_beq reach] at run
  obtain ⟨d, hd, hh⟩ := (Option.any_eq_true _ _).1 left
  have left : interrupted.2.AnyLeftBehind 1 := by
    refine ⟨_, d, hd, ?_⟩
    unfold LeftBehind
    rw [eq_of_beq hh]
    decide
  obtain ⟨-, next, -, -⟩ := fault_iff_anyLeftBehind run
  obtain ⟨hiff, hfault⟩ := next (treeAfter [emptyBlock, exampleBlock])
    ⟨2, repeatedBlock.hash, repeatedBlock.time⟩ repeatedBlock rfl
  obtain ⟨fault, h⟩ := Option.ne_none_iff_exists'.1 (hiff.2 left)
  obtain ⟨found, rfl⟩ := hfault _ h
  exact ⟨run, left, found, h⟩

end Ledger
end ShieldedLedger
