import ShieldedLedger.Proofs.Rescan.Bare
import ShieldedLedger.Proofs.Witnesses.Follower
import ShieldedLedger.Proofs.Witnesses.Notes

/-!
# Rescanning and following

An empty ledger comes to the same entries whether it is told of every block as it arrives (`follow`)
or scans the whole chain later on (`Ledger.rescan`). The one sees a chain that grows and a clock
that runs, the other the final chain and one time, and all that depends on this is when an entry was
received (`SameButDates`). A block that the one fails on the other fails on too, for the same
reason.

This needs that every entry is updated when its record is seen again. A scan that leaves known
entries alone does the same as one that updates them if no record occurs twice
(`rescan_update`). If one does, following links it to its last block, such a scan to its first.
-/

namespace ShieldedLedger

/-! ## A chain from its first block on -/

/-- The source shows the chain of these blocks, from the first to the tip. -/
structure ChainSource.Shows (source : ChainSource) (blocks : List Block) : Prop where
  /-- The heights count the blocks from zero. -/
  tipHeight : source.tipHeight = (blocks.length : Int) - 1
  /-- Every block is at its height. -/
  blockAt? : ∀ (n : Nat) (block : Block), blocks[n]? = some block →
    ∃ index, source.blockAt? n = some (index, block) ∧ index.height = n
  /-- The tree before a block is the one after those before it. -/
  treeBefore? : ∀ n < blocks.length, source.treeBefore? n = some (treeAfter (blocks.take n).reverse)
  /-- The time of every block is known. -/
  timeOf? : ∀ block ∈ blocks, source.timeOf? block.hash = some block.time

/-- The source of a chain of blocks, of which the first comes first. -/
def ChainSource.ofBlocks (blocks : List Block) : ChainSource where
  tipHeight := (blocks.length : Int) - 1
  heightOf? hash := (blocks.findIdx? (·.hash == hash)).map Int.ofNat
  timeOf? hash := (blocks.find? (·.hash == hash)).map (·.time)
  blockAt? height :=
    if height < 0 then none
    else blocks[height.toNat]?.map fun b => (⟨height, b.hash, b.time⟩, b)
  treeBefore? height :=
    if height < 0 then none else some (treeAfter (blocks.take height.toNat).reverse)

/-- The source of blocks with different hashes shows the chain of these blocks. -/
theorem ChainSource.shows_ofBlocks {blocks : List Block} (h : (blocks.map (·.hash)).Nodup) :
    (ofBlocks blocks).Shows blocks := by
  have found : ∀ {blocks : List Block}, (blocks.map (·.hash)).Nodup → ∀ block ∈ blocks,
      blocks.find? (·.hash == block.hash) = some block := by
    intro blocks
    induction blocks with
    | nil => exact fun _ _ hmem => nomatch hmem
    | cons first rest ih =>
      intro h block hmem
      rw [List.map_cons, List.nodup_cons] at h
      rcases List.mem_cons.1 hmem with rfl | hmem
      · exact List.find?_cons_of_pos (beq_self_eq_true _)
      · have other : first.hash ≠ block.hash := fun heq =>
          h.1 (heq ▸ List.mem_map_of_mem hmem)
        rw [List.find?_cons_of_neg (by simpa using other)]
        exact ih h.2 block hmem
  refine ⟨rfl, fun n block hn => ⟨⟨n, block.hash, block.time⟩, ?_, rfl⟩, fun n _ => rfl,
    fun block hmem => ?_⟩
  · simp [ofBlocks, hn]
  · show (blocks.find? (·.hash == block.hash)).map (·.time) = _
    rw [found h block hmem]
    rfl

/-- A block as it arrives, with what is seen of the chain then and the time on the clock. -/
structure Arrival where
  block : Block
  view : ChainView
  now : Int64

/-- The time of the block is known when it arrives. -/
def Arrival.Timed (a : Arrival) : Prop := a.view.timeOf? a.block.hash = some a.block.time

namespace Ledger

/-- A block arrives after those before it, of which the tip comes first: its records are synced with
it, and then the tip is moved to it. -/
def arrive (keys : KeyView) (before : List Block) (a : Arrival) : LedgerOp Unit := do
  a.block.records.forM fun r => sync keys a.view a.now r (some a.block)
  tipOn (treeAfter before) (chainTip ⟨before.length, a.block.hash, a.block.time⟩ a.block true)

/-- Follows a chain on from the blocks before, up to the first failure. -/
def follow (keys : KeyView) : (before : List Block) → List Arrival → LedgerOp Unit
  | _, [] => return ()
  | before, a :: rest => do
    arrive keys before a
    follow keys (a.block :: before) rest

/-! ## One block -/

variable {keys : KeyView} {view : ChainView} {now : Int64}

/-- A loop that collects answers is like one that does not if their steps are alike. -/
theorem Alike.loop {α β : Type} {f : β → α → LedgerOp β} {g : α → LedgerOp PUnit}
    (h : ∀ b a, Alike (fun _ _ => True) (f b a) (g a)) : ∀ (items : List α) (b : β),
    Alike (fun _ _ => True) (items.foldlM f b) (items.forM g)
  | [], _ => Alike.pure trivial
  | a :: rest, b => Alike.bind (h b a) fun b _ _ => Alike.loop h rest b

/-- The records of a block are taken in alike by a scan that updates entries and by
notifications. -/
theorem alike_scanRecords {a : Arrival} (htime : SameTime view a.view a.block.hash) :
    Alike (fun _ _ => True) (scanRecords keys view now a.block true)
      (a.block.records.forM fun r => sync keys a.view a.now r (some a.block)) := by
  refine Alike.loop (fun added r => ?_) _ _
  refine Alike.bind (alike_addIfRelevant htime now a.now keys r true) ?_
  rintro taken _ rfl
  cases taken with
  | false => exact Alike.pure trivial
  | true => exact fun l l' hl => ⟨trivial, hl.trans (bare_markAffectedDirty l' r).symm⟩

/-- One block is dealt with alike by a scan and when it arrives. -/
theorem alike_scanBlock {source : ChainSource} {before : List Block} {a : Arrival}
    (htime : SameTime view a.view a.block.hash) {index : BlockIndex}
    (hindex : index.height = before.length)
    (htree : source.treeBefore? before.length = some (treeAfter before)) :
    Alike (fun _ _ => True) (scanBlock keys view now source index a.block before.length true)
      (arrive keys before a) := by
  have moved : chainTip ⟨before.length, a.block.hash, a.block.time⟩ a.block true =
      chainTip index a.block true := by
    unfold chainTip
    rw [hindex]
  unfold scanBlock arrive
  rw [htree, moved]
  refine Alike.bind (alike_scanRecords htime) fun added _ _ => ?_
  exact (Alike.of_commutes (commutes_tipOn_connect (treeAfter before) index a.block)).answer added

/-! ## The whole chain -/

/-- Without a time of the oldest key no block is passed over. -/
theorem isBeforeKeys_eq_false (hkeys : keys.firstKeyTime? = none) (index : BlockIndex) :
    isBeforeKeys keys index = false := by
  unfold isBeforeKeys
  rw [hkeys]
  rfl

/-- From a block on, as many blocks as have arrived are scanned as they have been followed. Then the
scan is at the tip, or it is stopped. -/
theorem alike_scanFrom {source : ChainSource} {blocks : List Block} (hshows : source.Shows blocks)
    (hkeys : keys.firstKeyTime? = none) {request : ScanRequest} (hupdate : request.update = true) :
    ∀ (rest : List Arrival) (before later : List Block) (summary : ScanSummary),
    blocks = before.reverse ++ (rest.map Arrival.block ++ later) → (∀ a ∈ rest, a.Timed) →
    (∀ n < before.length + rest.length, request.stopAt n = false) →
    (later = [] ∨ request.stopAt (before.length + rest.length : Nat) = true) →
    Alike (fun _ _ => True)
      (scanFrom keys source.toChainView now source request (rest.length + later.length)
        before.length summary)
      (follow keys before rest)
  | [], before, later, summary, _, _, _, hend => by
    cases later with
    | nil => exact Alike.pure trivial
    | cons next later =>
      have stop : request.stopAt before.length = true := hend.resolve_left (List.cons_ne_nil _ _)
      rw [List.length_nil, Nat.zero_add, List.length_cons]
      unfold scanFrom
      rw [if_pos stop]
      exact Alike.pure trivial
  | a :: rest, before, later, summary, hblocks, htimed, hgo, hend => by
    have here : blocks[before.length]? = some a.block := by
      rw [hblocks]
      simp
    have earlier : (blocks.take before.length).reverse = before := by
      rw [hblocks, ← List.length_reverse, List.take_left, List.reverse_reverse]
    have inside : before.length < blocks.length := (List.getElem?_eq_some_iff.1 here).1
    obtain ⟨index, hblock, hindex⟩ := hshows.blockAt? _ _ here
    have htree := hshows.treeBefore? _ inside
    rw [earlier] at htree
    have htime : SameTime source.toChainView a.view a.block.hash :=
      ⟨_, hshows.timeOf? _ (List.mem_of_getElem? here), htimed a List.mem_cons_self⟩
    have go : ¬ request.stopAt before.length = true := by
      rw [hgo _ (by rw [List.length_cons]; omega)]
      exact Bool.false_ne_true
    rw [show (a :: rest).length + later.length = rest.length + later.length + 1 by
      rw [List.length_cons]; omega]
    unfold scanFrom follow
    rw [if_neg go, hblock]
    dsimp only
    rw [isBeforeKeys_eq_false hkeys, if_neg Bool.false_ne_true, hupdate]
    -- The block is scanned as it was followed; what it adds to the summary is not compared.
    refine Alike.bind (alike_scanBlock htime hindex htree) fun added _ _ => ?_
    have next := alike_scanFrom hshows hkeys hupdate rest (a.block :: before) later
      { summary with added := summary.added ++ added, lastHeight := some before.length }
      (by rw [hblocks]; simp) (fun a' ha' => htimed a' (List.mem_cons_of_mem _ ha'))
      (fun n hn => hgo n (by rw [List.length_cons] at hn ⊢; omega))
      (hend.imp_right fun h => by
        rw [← h, List.length_cons, List.length_cons]
        congr 2
        omega)
    exact next

/-! ## Memoized amounts -/

/-- No amount is memoized. -/
def Unmemoized (l : Ledger) : Prop :=
  ∀ hash e, l.entry? hash = some e → e.memo = AmountMemo.blank

namespace Unmemoized

variable {l l' : Ledger}

/-- Nothing is memoized where the memos are those of a ledger in which nothing is. -/
theorem of_agree (hl : l.Unmemoized) (h : Agree Entry.memo l l') : l'.Unmemoized := by
  intro hash e' he'
  obtain ⟨e, he, hmemo⟩ := h.entry he'
  rw [hmemo]
  exact hl hash e he

/-- Forgetting a memo memoizes nothing. -/
theorem markDirty (hl : l.Unmemoized) (hash : Hash256) :
    (l.modifyEntry hash Entry.markDirty).Unmemoized := by
  intro hash' e' he'
  rw [entry?_modifyEntry] at he'
  split at he'
  · obtain ⟨e, -, rfl⟩ := Option.map_eq_some_iff.1 he'
    rfl
  · exact hl hash' e' he'

/-- Steps that memoize nothing do so one after the other. -/
theorem foldl {α : Type} {step : Ledger → α → Ledger}
    (h : ∀ l a, Unmemoized l → Unmemoized (step l a)) (items : List α) (hl : l.Unmemoized) :
    (items.foldl step l).Unmemoized :=
  List.foldlRecOn items step hl fun l hl a _ => h l a hl

/-- Registering a spend memoizes nothing. -/
theorem registerSpend (hl : l.Unmemoized) (hash : Hash256) (key : SpendKey) :
    (registerSpend hash l key).Unmemoized := by
  unfold Ledger.registerSpend
  dsimp only
  generalize (if (l.spendersOf key).contains hash then _ else _ : List Hash256) = owners
  split
  · refine foldl (fun l owner hl => hl.markDirty owner) _ ?_
    refine of_agree ?_ (agree_alignInfo (fun _ _ => rfl) _)
    exact hl
  · exact hl

/-- An entry about which nothing is memoized is put into the ledger. -/
theorem of_insert (hl : l.Unmemoized) {e : Entry} (he : e.memo = AmountMemo.blank)
    (entries : ∀ hash, l'.entry? hash = if hash = e.hash then some e else l.entry? hash) :
    l'.Unmemoized := by
  intro hash e' he'
  rw [entries] at he'
  split at he'
  · obtain rfl := Option.some.inj he'
    exact he
  · exact hl hash e' he'

end Unmemoized

/-- Adding an entry memoizes nothing. -/
theorem keeps_unmemoized_addEntry (incoming : Entry) :
    Keeps Unmemoized (addEntry view now incoming) := by
  intro l hl
  rcases addEntry_cases view now incoming l with h | ⟨-, store, h⟩ | ⟨stored, store, -, h⟩ <;>
    rw [h]
  · exact hl
  · have inserted := hl.of_insert rfl
      (entry?_withNew l (incoming.received view now l.nextOrder).markDirty store)
    refine Unmemoized.of_agree ?_ (agree_indexEntry incoming.hash)
    unfold registerSpends
    split
    · exact inserted
    · exact inserted.foldl (fun l key hl => hl.registerSpend incoming.hash key) _
  · have inserted := hl.of_insert rfl (entry?_withMerged l (stored.merge incoming).markDirty store)
    exact inserted.of_agree (agree_indexEntry incoming.hash)

/-- Connecting a block memoizes nothing. -/
theorem keeps_unmemoized_chainTip (index : BlockIndex) (block : Block) :
    Keeps (fun s => s.ledger.Unmemoized) (chainTip index block true) := fun s hs =>
  hs.of_agree (keeps_agree_chainTip (fun _ _ _ => rfl) s.ledger index block true s (.refl _ _))

/-- Following blocks memoizes nothing. -/
theorem keeps_unmemoized_follow : ∀ (before : List Block) (arrivals : List Arrival),
    Keeps Unmemoized (follow keys before arrivals)
  | _, [] => Keeps.pure _
  | before, a :: rest => by
    refine Keeps.bind (Keeps.bind (Keeps.forM _ fun r _ => ?_) fun _ => ?_) fun _ =>
      keeps_unmemoized_follow _ rest
    · exact keeps_sync (fun _ _ _ => keeps_unmemoized_addEntry _) fun _ hl =>
        hl.foldl (fun _ hash hl => hl.markDirty hash) _
    · exact keeps_tipOn (keeps_unmemoized_chainTip _ _)

/-- An empty ledger has no entries to memoize anything in. -/
theorem unmemoized_empty (settings : Settings) (store : Store) :
    (empty settings store).Unmemoized := fun _ _ he => nomatch he

/-- The ledgers differ at most in when their entries were received, and in what their stores hold.
-/
structure SameButDates (l l' : Ledger) : Prop where
  entries : ∀ hash, (l.entry? hash).map Entry.undated = (l'.entry? hash).map Entry.undated
  spenders : l.spenders = l'.spenders
  noteIndex : l.noteIndex = l'.noteIndex
  nextOrder : l.nextOrder = l'.nextOrder
  cacheSize : l.cacheSize = l'.cacheSize
  settings : l.settings = l'.settings

/-- With nothing memoized, ledgers that are equal when bare differ in dates alone. -/
theorem Unmemoized.sameButDates {l l' : Ledger} (hl : l.Unmemoized) (hl' : l'.Unmemoized)
    (h : l.bare = l'.bare) : SameButDates l l' := by
  have field : ∀ {β : Type} (f : Ledger → β), f l.bare = f l'.bare := fun f => congrArg f h
  have undated : ∀ {l : Ledger}, l.Unmemoized → ∀ hash,
      (l.entry? hash).map Entry.undated = l.bare.entry? hash := by
    intro l hl hash
    rw [entry?_bare]
    cases he : l.entry? hash with
    | none => rfl
    | some e =>
      simp [Entry.bare, Entry.markDirty, Entry.undated, hl hash e he]
  refine ⟨fun hash => ?_, field (·.spenders), field (·.noteIndex), field (·.nextOrder),
    field (·.cacheSize), field (·.settings)⟩
  rw [undated hl, undated hl', h]

/-! ## Scans that leave known entries alone -/

/-- From ledgers with `I` the operations do the same and leave one with `J` behind. -/
def Coincide {α : Type} (I J : Ledger → Prop) (op op' : LedgerOp α) : Prop :=
  ∀ l, I l → op l = op' l ∧ J (op l).2

namespace Coincide

variable {α β : Type} {I J K : Ledger → Prop}

/-- An operation that keeps a property coincides with itself. -/
theorem of_keeps {op : LedgerOp α} (h : Keeps I op) : Coincide I I op op :=
  fun l hl => ⟨rfl, h l hl⟩

/-- Two operations in a row coincide with two others if each coincides with its counterpart. -/
theorem bind {op op' : LedgerOp α} {f f' : α → LedgerOp β} (hop : Coincide I J op op')
    (hJ : ∀ l, J l → K l) (hf : ∀ a, Coincide J K (f a) (f' a)) :
    Coincide I K (op >>= f) (op' >>= f') := by
  intro l hl
  obtain ⟨same, left⟩ := hop l hl
  cases h : op l with
  | mk outcome l₁ =>
    rw [h] at same left
    cases outcome with
    | ok a =>
      rw [bind_of_ok h, bind_of_ok same.symm]
      exact hf a l₁ left
    | error e =>
      rw [bind_of_error h, bind_of_error same.symm]
      exact ⟨rfl, hJ l₁ left⟩

end Coincide

/-- There is no entry for any of the hashes. -/
def Unseen (hashes : List Hash256) : Ledger → Prop :=
  Holding (fun r => r.hash ∉ hashes) fun _ _ _ => True

/-- If none of the hashes has an entry, no fewer ones do. -/
theorem Unseen.imp {hashes hashes' : List Hash256} {l : Ledger} (hl : Unseen hashes l)
    (h : ∀ hash ∈ hashes', hash ∈ hashes) : Unseen hashes' l :=
  ⟨fun hash e he => (hl.entries hash e he).imp_right fun hnot hmem => hnot (h _ hmem), hl.notes⟩

/-- An entry that is unseen is not contained. -/
theorem Unseen.contains {hashes : List Hash256} {l : Ledger} (hl : Unseen hashes l) {hash : Hash256}
    (hmem : hash ∈ hashes) : l.entries.contains hash = false := by
  have unheld : l.entry? hash = none := by
    cases he : l.entry? hash with
    | none => rfl
    | some e =>
      obtain ⟨rfl, hnot⟩ := hl.entries hash e he
      exact absurd hmem hnot
  exact congrArg Option.isSome unheld

/-- A chain update inserts no entries. -/
theorem keeps_unseen_tipOn (hashes : List Hash256) (tree : NoteTree) (index : BlockIndex)
    (block : Block) : Keeps (Unseen hashes) (tipOn tree (chainTip index block true)) := by
  intro l hl
  rw [tipOn_connect]
  rcases connectBlock_cases index.height block ⟨l, tree⟩ with
    ⟨fault, -, h⟩ | ⟨-, outcome, s₁, hwalk, h⟩
  · rw [h]
    exact hl
  · obtain ⟨walked, -, -⟩ := Holding.forM_appendBlockLeaf (Q := fun _ _ _ => True) hl tree
      (fun _ _ _ h => h) (fun _ _ _ _ _ h _ => h) (fun _ _ _ _ _ h => h) hwalk
    rcases h with ⟨-, h⟩ | ⟨-, h⟩ <;> rw [h]
    · exact walked.of_notes (agree_mapNotes (fun _ _ _ => rfl) _)
        (walked.notes.mapNotes fun _ _ _ h => h)
    · exact walked

/-- Whether entries are updated makes no difference to a record that there is no entry for. -/
theorem coincide_addIfRelevant {r : Record} {later : List Hash256} (hr : r.hash ∉ later)
    (block : Option Block) (update : Bool) : Coincide (Unseen (r.hash :: later)) (Unseen later)
      (addIfRelevant keys view now (Entry.ofRecord r) block update)
      (addIfRelevant keys view now (Entry.ofRecord r) block true) := by
  intro l hl
  have kept : Keeps (Unseen later) (addIfRelevant keys view now (Entry.ofRecord r) block update) :=
    keeps_holding_addIfRelevant keys view now hr (fun _ _ _ _ _ _ _ => trivial)
      (fun _ _ _ _ => trivial) block update
  refine ⟨?_, kept l (hl.imp fun _ => List.mem_cons_of_mem _)⟩
  have unseen : l.entries.contains (Entry.ofRecord r).hash = false := hl.contains List.mem_cons_self
  have got : (get : LedgerOp Ledger) l = (.ok l, l) := rfl
  unfold addIfRelevant
  rw [bind_of_ok got, bind_of_ok got, unseen]
  rfl

/-- Scanning the records of a block, whose hashes have no entry yet, updates nothing, so that it
makes no difference whether it may. -/
theorem coincide_scanRecords {block : Block} {later : List Hash256}
    (hnodup : (block.records.map Record.hash ++ later).Nodup) (update : Bool) :
    Coincide (Unseen (block.records.map Record.hash ++ later)) (Unseen later)
      (scanRecords keys view now block update) (scanRecords keys view now block true) := by
  have walked : ∀ (records : List Record) (added : List Hash256),
      (records.map Record.hash ++ later).Nodup →
      Coincide (Unseen (records.map Record.hash ++ later)) (Unseen later)
        (records.foldlM (fun added r => do
          let taken ← addIfRelevant keys view now (Entry.ofRecord r) (some block) update
          return if taken then added ++ [r.hash] else added) added)
        (records.foldlM (fun added r => do
          let taken ← addIfRelevant keys view now (Entry.ofRecord r) (some block) true
          return if taken then added ++ [r.hash] else added) added) := by
    intro records
    induction records with
    | nil => exact fun _ _ l hl => ⟨rfl, hl⟩
    | cons r rest ih =>
      intro added hnodup
      obtain ⟨hr, hnodup⟩ := List.nodup_cons.1 hnodup
      refine Coincide.bind (Coincide.bind (coincide_addIfRelevant hr (some block) update)
        (fun _ h => h) fun taken => Coincide.of_keeps (Keeps.pure _)) (fun l hl => ?_)
        fun added => ih added hnodup
      exact hl.imp fun _ => List.mem_append_right _
  exact walked block.records [] hnodup

/-- Scanning a block of such records is the same with and without updating. -/
theorem coincide_scanBlock {source : ChainSource} {index : BlockIndex} {block : Block}
    {height : Int} {later : List Hash256}
    (hnodup : (block.records.map Record.hash ++ later).Nodup) (update : Bool) :
    Coincide (Unseen (block.records.map Record.hash ++ later)) (Unseen later)
      (scanBlock keys view now source index block height update)
      (scanBlock keys view now source index block height true) := by
  refine Coincide.bind (coincide_scanRecords hnodup update) (fun _ h => h) fun added => ?_
  refine Coincide.of_keeps ?_
  split
  · exact keeps_refuse _
  · exact Keeps.bind (keeps_unseen_tipOn _ _ _ _) fun _ => Keeps.pure _

/-- The hashes of the records of some blocks. -/
def recordHashes (blocks : List Block) : List Hash256 :=
  blocks.flatMap fun block => block.records.map Record.hash

/-- If no record occurs twice and none is known, it makes no difference to a scan whether entries
are updated. -/
theorem coincide_scanFrom {source : ChainSource} {blocks : List Block}
    (hshows : source.Shows blocks) (request : ScanRequest) :
    ∀ (rest before : List Block) (summary : ScanSummary),
    blocks = before ++ rest → (recordHashes rest).Nodup →
    Coincide (Unseen (recordHashes rest)) (fun _ => True)
      (scanFrom keys view now source request rest.length before.length summary)
      (scanFrom keys view now source { request with update := true } rest.length before.length
        summary)
  | [], _, _, _, _ => fun _ _ => ⟨rfl, trivial⟩
  | block :: rest, before, summary, hblocks, hnodup => by
    have here : blocks[before.length]? = some block := by
      rw [hblocks]
      simp
    obtain ⟨index, hblock, -⟩ := hshows.blockAt? _ _ here
    have next : ∀ summary, Coincide (Unseen (recordHashes rest)) (fun _ => True)
        (scanFrom keys view now source request rest.length (before.length + 1) summary)
        (scanFrom keys view now source { request with update := true } rest.length
          (before.length + 1) summary) := by
      intro summary
      have step := coincide_scanFrom hshows request rest (before ++ [block]) summary
        (by rw [hblocks]; simp) (List.nodup_append.1 hnodup).2.1
      rwa [List.length_append, List.length_singleton, Int.natCast_add] at step
    rw [List.length_cons]
    unfold scanFrom
    rw [hblock]
    dsimp only
    split
    · exact fun _ _ => ⟨rfl, trivial⟩
    split
    · intro l hl
      exact next summary l (hl.imp fun _ => List.mem_append_right _)
    · exact Coincide.bind (coincide_scanBlock hnodup request.update) (fun _ _ => trivial)
        fun added => next _

/-- An empty ledger has seen nothing. -/
theorem unseen_empty (hashes : List Hash256) (settings : Settings) (store : Store) :
    Unseen hashes (empty settings store) :=
  ⟨fun _ _ he => (nomatch he), fun _ _ he => (nomatch he)⟩

/-- An empty ledger scans a chain in which no record occurs twice in the same way whether it updates
entries or leaves them alone. -/
theorem rescan_update {source : ChainSource} {blocks : List Block} (hshows : source.Shows blocks)
    (hnodup : (recordHashes blocks).Nodup) {request : ScanRequest} (hstart : request.start ≤ 0)
    (settings : Settings) (store : Store) :
    rescan keys view now source request (empty settings store) =
      rescan keys view now source { request with update := true } (empty settings store) := by
  unfold rescan
  rw [hshows.tipHeight, Int.max_eq_right hstart,
    show ((blocks.length : Int) - 1 + 1 - 0).toNat = blocks.length by omega]
  exact (coincide_scanFrom hshows request blocks [] _ rfl hnodup _
    (unseen_empty _ settings store)).1

/-! ## Rescanning and following -/

section
variable {source : ChainSource} {arrivals : List Arrival}

/-- A scan that updates entries and comes to the tip, or is stopped after as many blocks as have
arrived, does what following these blocks does. -/
theorem alike_rescan (request : ScanRequest) (hkeys : keys.firstKeyTime? = none)
    (hshows : source.Shows (arrivals.map Arrival.block)) (htimed : ∀ a ∈ arrivals, a.Timed)
    (hupdate : request.update = true) (hstart : request.start ≤ 0) {count : Nat}
    (hcount : count ≤ arrivals.length) (hgo : ∀ n < count, request.stopAt n = false)
    (hend : count = arrivals.length ∨ request.stopAt count = true) (now : Int64) :
    Alike (fun _ _ => True) (rescan keys source.toChainView now source request)
      (follow keys [] (arrivals.take count)) := by
  have parts : arrivals.map Arrival.block = [].reverse ++
      ((arrivals.take count).map Arrival.block ++ (arrivals.drop count).map Arrival.block) := by
    rw [← List.map_append, List.take_append_drop]
    rfl
  have taken : (arrivals.take count).length = count := List.length_take_of_le hcount
  have walked : Alike (fun _ _ => True) (scanFrom keys source.toChainView now source request _ _ _)
      _ := alike_scanFrom hshows hkeys hupdate (arrivals.take count) []
    ((arrivals.drop count).map Arrival.block) ⟨[], none, false⟩ parts
    (fun a ha => htimed a (List.mem_of_mem_take ha))
    (fun n hn => hgo n (by rwa [taken, List.length_nil, Nat.zero_add] at hn))
    (by
      rw [taken, List.length_nil, Nat.zero_add]
      refine hend.imp_left fun h => ?_
      rw [h, List.drop_length, List.map_nil])
  rw [taken, List.length_map, List.length_drop, Nat.add_sub_cancel' hcount] at walked
  unfold rescan
  rw [hshows.tipHeight, Int.max_eq_right hstart, List.length_map]
  dsimp only
  rw [show ((arrivals.length : Int) - 1 + 1 - 0).toNat = arrivals.length by omega]
  exact walked

/-- Rescanning equals following. The keys do not tell when the oldest was made; a chain has arrived
block by block; and the scan updates entries, or no record occurs twice in the chain. An empty
ledger that scans the chain from its first block on and one that has followed it, whatever the
clocks showed, either both fail, for the same reason, or both succeed, and their ledgers differ only
in when entries were received. This holds after any number of blocks, so if they fail it is on the
same block. -/
theorem rescan_follows (request : ScanRequest) (hkeys : keys.firstKeyTime? = none)
    (hshows : source.Shows (arrivals.map Arrival.block)) (htimed : ∀ a ∈ arrivals, a.Timed)
    (hupdate : request.update = true ∨ (recordHashes (arrivals.map Arrival.block)).Nodup)
    (hstart : request.start ≤ 0) {count : Nat} (hcount : count ≤ arrivals.length)
    (hgo : ∀ n < count, request.stopAt n = false)
    (hend : count = arrivals.length ∨ request.stopAt count = true) (now : Int64)
    (settings : Settings) (store : Store) :
    let rescanned := rescan keys source.toChainView now source request (empty settings store)
    let followed := follow keys [] (arrivals.take count) (empty settings store)
    SameOutcome (fun _ _ => True) rescanned.1 followed.1 ∧ SameButDates rescanned.2 followed.2 := by
  intro rescanned followed
  have updating : rescanned = rescan keys source.toChainView now source
      { request with update := true } (empty settings store) := by
    rcases hupdate with hupdate | hnodup
    · rw [← hupdate]
    · exact rescan_update hshows hnodup hstart settings store
  have unmemoized := unmemoized_empty settings store
  have walked : Alike (fun _ _ => True)
      (rescan keys source.toChainView now source { request with update := true })
      (follow keys [] (arrivals.take count)) :=
    alike_rescan { request with update := true } hkeys hshows htimed rfl hstart hcount hgo hend now
  obtain ⟨outcome, left⟩ := walked _ _ (Eq.refl (empty settings store).bare)
  rw [← updating] at outcome left
  refine ⟨outcome, Unmemoized.sameButDates ?_ ?_ left⟩
  · exact keeps_rescan keeps_unmemoized_addEntry keeps_unmemoized_chainTip _ unmemoized
  · exact keeps_unmemoized_follow _ _ _ unmemoized

end

/-! ## Two chains of two blocks -/

/-- A block with the transaction of the example. -/
def exampleBlock : Block := Follower.blockOf (Follower.transparentWith 0x11 0x12)

/-- The blocks of a chain that starts with the example's, and how they arrive. -/
def arrivalsAfter (second : Block) : List Arrival :=
  [⟨exampleBlock, (ChainSource.ofBlocks [exampleBlock]).toChainView, 100⟩,
    ⟨second, (ChainSource.ofBlocks [exampleBlock, second]).toChainView, 200⟩]

/-- Such a chain is scanned later on, without an update of known entries. -/
def rescannedAfter (second : Block) : Except Failure ScanSummary × Ledger :=
  let source := ChainSource.ofBlocks [exampleBlock, second]
  rescan Follower.exampleSurroundings.keys source.toChainView 300 source ⟨0, false, fun _ => false⟩
    (empty Settings.default Store.empty)

/-- Or it is followed. -/
def followedAfter (second : Block) : Except Failure Unit × Ledger :=
  follow Follower.exampleSurroundings.keys [] (arrivalsAfter second)
    (empty Settings.default Store.empty)

/-- The source of the two example blocks shows their chain. -/
theorem shows_ofBlocks_example {second : Block} (h : second.hash ≠ exampleBlock.hash) :
    (ChainSource.ofBlocks [exampleBlock, second]).Shows
      ((arrivalsAfter second).map Arrival.block) :=
  ChainSource.shows_ofBlocks (by simpa [arrivalsAfter] using h.symm)

/-- The example blocks arrive with their times known. -/
theorem timed_example {second : Block} (h : second.hash ≠ exampleBlock.hash) :
    ∀ a ∈ arrivalsAfter second, a.Timed := by
  intro a ha
  rcases List.mem_cons.1 ha with rfl | ha
  · simp [Arrival.Timed, ChainSource.ofBlocks]
  · obtain rfl := List.mem_singleton.1 ha
    simp [Arrival.Timed, ChainSource.ofBlocks, h.symm]

/-- A block without records after the example's. -/
def emptyBlock : Block := ⟨Bytes.filled 32 0xb1, 150, [], []⟩

/-- The first of two blocks holds a transaction with our note. Rescanned or followed, the note has
the same two witnesses. -/
theorem rescan_follows_example :
    SameButDates (rescannedAfter emptyBlock).2 (followedAfter emptyBlock).2 ∧
      ((followedAfter emptyBlock).2.note? Follower.exampleNote).map
        (fun d => (d.witnesses.length, d.witnessHeight)) = some (2, 1) := by
  have other : emptyBlock.hash ≠ exampleBlock.hash := by decide
  have nodup : (recordHashes ((arrivalsAfter emptyBlock).map Arrival.block)).Nodup :=
    List.pairwise_singleton _ _
  refine ⟨?_, by decide +kernel⟩
  exact (rescan_follows ⟨0, false, fun _ => false⟩ rfl (shows_ofBlocks_example other)
    (timed_example other) (.inr nodup) (Int.le_refl _) (Nat.le_refl 2) (fun _ _ => rfl) (.inl rfl)
    300 Settings.default Store.empty).2

/-- Another block with the same transaction. -/
def repeatedBlock : Block := { exampleBlock with hash := Bytes.filled 32 0xb1 }

/-- The block that the transaction of the example is linked to. -/
def linkedTo (l : Ledger) : Option Hash256 :=
  (l.entry? Follower.exampleNote.hash).map fun e => e.link.block

/-- Both of two blocks hold the same transaction. A scan that leaves known entries alone links it to
the first, following to the second. -/
theorem rescan_links_first :
    Follower.exampleSurroundings.keys.firstKeyTime? = none ∧
      (ChainSource.ofBlocks [exampleBlock, repeatedBlock]).Shows
        ((arrivalsAfter repeatedBlock).map Arrival.block) ∧
      (∀ a ∈ arrivalsAfter repeatedBlock, a.Timed) ∧
      (∃ summary, (rescannedAfter repeatedBlock).1 = .ok summary ∧ summary.interrupted = false) ∧
      (followedAfter repeatedBlock).1 = .ok () ∧
      linkedTo (rescannedAfter repeatedBlock).2 = some exampleBlock.hash ∧
      linkedTo (followedAfter repeatedBlock).2 = some repeatedBlock.hash ∧
      ¬ SameButDates (rescannedAfter repeatedBlock).2 (followedAfter repeatedBlock).2 := by
  have other : repeatedBlock.hash ≠ exampleBlock.hash := by decide
  have computed : ((rescannedAfter repeatedBlock).1.toOption.any (fun s => !s.interrupted) &&
      (followedAfter repeatedBlock).1.toOption.any (· == ()) &&
      (linkedTo (rescannedAfter repeatedBlock).2 == some exampleBlock.hash) &&
      linkedTo (followedAfter repeatedBlock).2 == some repeatedBlock.hash) = true := by
    decide +kernel
  obtain ⟨h, last⟩ := Bool.and_eq_true_iff.1 computed
  obtain ⟨h, first⟩ := Bool.and_eq_true_iff.1 h
  obtain ⟨rescanned, followed⟩ := Bool.and_eq_true_iff.1 h
  obtain ⟨summary, rescanned, hdone⟩ := exists_ok_of_any rescanned
  obtain ⟨⟨⟩, followed, -⟩ := exists_ok_of_any followed
  have first := eq_of_beq first
  have last := eq_of_beq last
  refine ⟨rfl, shows_ofBlocks_example other, timed_example other,
    ⟨summary, rescanned, by simpa using hdone⟩, followed, first, last, fun same => ?_⟩
  have links : linkedTo (rescannedAfter repeatedBlock).2 =
      linkedTo (followedAfter repeatedBlock).2 := by
    have links := congrArg (Option.map fun e : Entry => e.link.block)
      (same.entries Follower.exampleNote.hash)
    rwa [Option.map_map, Option.map_map] at links
  rw [first, last] at links
  exact other (Option.some.inj links).symm

end Ledger
end ShieldedLedger
