import ShieldedLedger.Proofs.Conflicts
import ShieldedLedger.Proofs.Rescan.Following
import ShieldedLedger.Proofs.TakingIn

/-!
# Confirmations follow the chain

How deep an entry is in the chain is not stored. It is computed from the entry's link, which is
merged with the link of every block that the record is seen in and which stays as it is when that
block is disconnected. So an entry may be linked to a block that is gone.

The depths are right nevertheless (`confirmations_follow`). A ledger that is told of a chain as it
grows and shrinks (`FollowsChain`) links every entry to a block that holds its record, if it links
it at all, and to the block of the active chain if one holds it (`Placed`): this block was connected
last, since no two blocks of the active chain hold the same record. So an entry is confirmed exactly
if a block of the active chain holds it, and the others are conflicted if somebody else who claims
the same is confirmed or was first.
-/

namespace ShieldedLedger

/-! ## Links -/

namespace MerkleLink

/-- A record that is seen unconfirmed says nothing new about its block. -/
theorem merge_unlinked (link : MerkleLink) : link.merge unlinked = link := by
  have zero : unlinked.block.isZero = true := Bytes.isZero_iff.2 rfl
  show { link with block := if unlinked.block.isZero then link.block else unlinked.block } = link
  rw [if_pos zero]

/-- One that is seen at a place in a block is linked there, wherever it was before. -/
theorem merge_of_placed (stored : MerkleLink) {link : MerkleLink}
    (hblock : link.block.isZero = false) (hindex : link.index ≠ none) :
    stored.merge link = link := by
  obtain ⟨block, branch, index⟩ := link
  cases index with
  | none => exact absurd rfl hindex
  | some index =>
    have hblock : block.isZero = false := hblock
    show MerkleLink.mk (if block.isZero then stored.block else block) branch (some index) = _
    rw [hblock]
    rfl

/-- A link to a block names the block, whether that holds the record or not. -/
theorem block_toBlock (block : Block) (hash : Hash256) :
    (toBlock block hash).block = block.hash := by
  unfold toBlock
  split <;> rfl

/-- A record of a block has a place in it. -/
theorem index_toBlock {block : Block} {r : Record} (hr : r ∈ block.records) :
    (toBlock block r.hash).index ≠ none := by
  have hashes : block.leafHashes = block.records.map (·.hash) := by
    simp only [Block.leafHashes, Block.records, List.map_append, List.map_map]
    rfl
  have found : (block.leafIndex? r.hash).isSome := by
    unfold Block.leafIndex?
    rw [List.findIdx?_isSome, hashes, List.any_eq_true]
    exact ⟨r.hash, List.mem_map_of_mem hr, beq_self_eq_true _⟩
  obtain ⟨index, h⟩ := Option.isSome_iff_exists.1 found
  unfold toBlock
  rw [h]
  exact nofun

/-- The place of a record that a block holds takes over from any other. -/
theorem merge_toBlock (stored : MerkleLink) {block : Block} {r : Record}
    (hblock : block.hash.isZero = false) (hr : r ∈ block.records) :
    stored.merge (toBlock block r.hash) = toBlock block r.hash := by
  have target := block_toBlock block r.hash
  refine stored.merge_of_placed ?_ (index_toBlock hr)
  rw [target, hblock]

end MerkleLink

namespace Ledger

variable {l : Ledger} {hash : Hash256} {r : Record} {link : MerkleLink}

/-! ## Placements -/

/-- What tells where an entry is in the chain: its record and its link. -/
def linkedPart (e : Entry) : Record × MerkleLink := (e.record, e.link)

/-- The record that is held under a hash, and its link. -/
def placement? (l : Ledger) (hash : Hash256) : Option (Record × MerkleLink) :=
  (l.entry? hash).map linkedPart

/-- What is told of the placement of an entry, in terms of the entry. -/
theorem placement?_eq_some_iff : l.placement? hash = some (r, link) ↔
    ∃ e, l.entry? hash = some e ∧ e.record = r ∧ e.link = link := by
  simp [placement?, linkedPart]

/-- An operation that takes in no record and removes none leaves the placements alone. -/
theorem placement?_quiet (s : Surroundings) {op : Operation}
    (hop : op.IsQuiet ∨ op = .deriveNullifiers) (l : Ledger) (hash : Hash256) :
    placement? (op.apply s l) hash = l.placement? hash := by
  rcases hop with hop | rfl
  · exact keeps_of_agree_quiet (f := linkedPart)
      (I := fun l' => l'.placement? hash = l.placement? hash) (fun _ _ => rfl) (fun _ _ => rfl)
      (fun _ _ agree h => (agree.entries hash).trans h)
      (fun hash' l' h => (entries_registerSpends (fun _ _ => rfl) (fun _ _ => rfl) l' hash'
        hash).trans h) s hop l rfl
  · exact (agree_deriveNullifiers (f := linkedPart) (fun _ _ _ => rfl) s.keys).entries hash

section
variable (keys : KeyView) (chain : ChainView) (now : Int64) (r : Record) (block : Option Block)
  (hhash : ∀ {hash e}, l.entry? hash = some e → e.hash = hash)
include hhash

/-- Adding an entry changes no placement but its own. -/
theorem placement?_addEntry {incoming : Entry} {l' : Ledger}
    (ha : addEntry chain now incoming l = (.ok (), l')) (hash : Hash256) :
    l'.placement? hash = if hash = incoming.hash then some (linkedPart (l.entryWith incoming))
      else l.placement? hash := by
  obtain ⟨l₀, added, rfl⟩ := added_of_addEntry hhash ha
  exact ((agree_indexEntry _).entries hash).trans
    (added.entries (fun _ _ => rfl) (fun _ _ => rfl) hash)

/-- Seeing a record changes no placement but its own. -/
theorem placement?_sync_of_ne (hne : hash ≠ r.hash) :
    placement? (sync keys chain now r block l).2 hash = l.placement? hash := by
  rcases sync_outcomes keys chain now r block l with ⟨_, h, -⟩ | ⟨_, h, -⟩ | ⟨l', ha, h⟩ <;> rw [h]
  refine ((agree_markAffectedDirty (fun _ _ => rfl) r).entries hash).trans ?_
  exact (placement?_addEntry chain now hhash ha hash).trans (if_neg hne)

/-- Its own placement is left as it is, which happens with a record that is held only if the store
does not take the entry; or the record is placed for the first time; or what is new about its
placement is added to what is known. -/
theorem placement?_sync_cases :
    let seen := ((Entry.ofRecord r).offered keys block).link
    let placement := placement? (sync keys chain now r block l).2 r.hash
    (placement = l.placement? r.hash ∧ ∀ e, l.entry? r.hash = some e →
      l.store.refused = some .entry ∨ e.record.encode? = none) ∨
    (l.entry? r.hash = none ∧ r.encode? ≠ none ∧ placement = some (r, seen)) ∨
    ∃ e, l.entry? r.hash = some e ∧ placement = some (e.record, e.link.merge seen) := by
  intro seen placement
  rcases sync_outcomes keys chain now r block l with ⟨_, h, hnot⟩ | ⟨_, h, reason⟩ | ⟨l', ha, h⟩
  · exact .inl ⟨congrArg (placement? ·.2 r.hash) h,
      fun e he => absurd (concerns_of_entry he _) hnot⟩
  · refine .inl ⟨congrArg (placement? ·.2 r.hash) h, fun e he => ?_⟩
    rwa [he] at reason
  · obtain ⟨l₀, added, rfl⟩ := added_of_addEntry hhash ha
    have placed : placement =
        some (linkedPart (l.entryWith ((Entry.ofRecord r).offered keys block))) := by
      refine (congrArg (placement? ·.2 r.hash) h).trans ?_
      refine ((agree_markAffectedDirty (fun _ _ => rfl) r).entries r.hash).trans ?_
      exact (placement?_addEntry chain now hhash ha r.hash).trans (if_pos rfl)
    cases he : l.entry? r.hash with
    | none =>
      rw [entryWith_of_none he] at placed
      exact .inr (.inl ⟨rfl, added.encodable he, placed⟩)
    | some e =>
      rw [entryWith_of_some he] at placed
      exact .inr (.inr ⟨e, rfl, placed⟩)

/-- The store goes on refusing what it refuses. -/
theorem refused_sync :
    (sync keys chain now r block l).2.store.refused = l.store.refused := by
  rcases sync_outcomes keys chain now r block l with ⟨_, h, -⟩ | ⟨_, h, -⟩ | ⟨l', ha, h⟩ <;> rw [h]
  obtain ⟨l₀, added, rfl⟩ := added_of_addEntry hhash ha
  obtain ⟨_, _, only⟩ :=
    onlyEntries_markAffectedDirty (l₀.indexEntry ((Entry.ofRecord r).offered keys block).hash) r
  have indexed : (l₀.indexEntry ((Entry.ofRecord r).offered keys block).hash).store = l₀.store := by
    unfold indexEntry
    split <;> rfl
  rw [only, ← added.refused, ← indexed]

end

/-! ## What places mean -/

/-- Among the records `known` and the blocks `mined`, hashes tell one from the other, no block's
hash is zero, and the blocks hold known records. -/
structure Identified (known : Record → Prop) (mined : Block → Prop) : Prop where
  record : ∀ {r r'}, known r → known r' → r.hash = r'.hash → r = r'
  block : ∀ {b b'}, mined b → mined b' → b.hash = b'.hash → b = b'
  nonzero : ∀ {b}, mined b → b.hash.isZero = false
  records : ∀ {b}, mined b → ∀ r ∈ b.records, known r

variable {known : Record → Prop} {mined : Block → Prop} {holds : Block → Record → Prop}

/-- The link of a record is right, where `holds` tells which blocks of the active chain hold which
records. -/
structure Placed (known : Record → Prop) (mined : Block → Prop) (holds : Block → Record → Prop)
    (r : Record) (link : MerkleLink) : Prop where
  known : known r
  encodable : r.encode? ≠ none
  /-- A link leads to a place in a block that holds the record, in the active chain or not. -/
  linked : link.block.isZero = true ∨
    ∃ b, mined b ∧ r ∈ b.records ∧ link.block = b.hash ∧ link.index ≠ none
  /-- If a block of the active chain holds the record, the link leads there. -/
  active : ∀ b, holds b r → link.block = b.hash

/-- All entries are found by their hashes and have the right links. -/
def AllPlaced (known : Record → Prop) (mined : Block → Prop) (holds : Block → Record → Prop)
    (l : Ledger) : Prop :=
  ∀ hash r link, l.placement? hash = some (r, link) →
    r.hash = hash ∧ Placed known mined holds r link

namespace AllPlaced

variable (hl : AllPlaced known mined holds l)
include hl

/-- What is said of all placements, for one entry. -/
theorem placed {e : Entry} (he : l.entry? hash = some e) :
    e.hash = hash ∧ Placed known mined holds e.record e.link :=
  hl hash _ _ (placement?_eq_some_iff.2 ⟨e, he, rfl, rfl⟩)

/-- Removing entries and blocks keeps the others in place. -/
theorem mono {l' : Ledger} {holds' : Block → Record → Prop}
    (hentries : ∀ hash p, l'.placement? hash = some p → l.placement? hash = some p)
    (hholds : ∀ b r, holds' b r → holds b r) : AllPlaced known mined holds' l' := by
  intro hash r link h
  obtain ⟨hhash, placed⟩ := hl hash r link (hentries _ _ h)
  exact ⟨hhash, { placed with active := fun b hb => placed.active b (hholds b r hb) }⟩

/-- It is enough to look at one place, if no other is changed and no other record comes to be
held. -/
theorem of_others {l' : Ledger} {holds' : Block → Record → Prop}
    (hothers : ∀ hash', hash' ≠ hash → l'.placement? hash' = l.placement? hash')
    (hholds : ∀ b r, holds' b r → r.hash ≠ hash → holds b r)
    (hown : ∀ r link, l'.placement? hash = some (r, link) →
      r.hash = hash ∧ Placed known mined holds' r link) : AllPlaced known mined holds' l' := by
  intro hash' r link h
  by_cases hsame : hash' = hash
  · subst hsame
    exact hown r link h
  · rw [hothers hash' hsame] at h
    obtain ⟨rfl, placed⟩ := hl hash' r link h
    exact ⟨rfl, { placed with active := fun b hb => placed.active b (hholds b r hb hsame) }⟩

/-- Seeing a record unconfirmed keeps all entries in place, if no block of the active chain holds
the record. -/
theorem announce (s : Surroundings) (hr : known r) (hnot : ∀ b, ¬ holds b r) :
    AllPlaced known mined holds ((Operation.sync r none).apply s l) := by
  have hhash : ∀ {hash e}, l.entry? hash = some e → e.hash = hash := fun he => (hl.placed he).1
  refine hl.of_others (fun _ hne => placement?_sync_of_ne _ _ _ _ _ hhash hne)
    (fun _ _ hb _ => hb) fun r' link h => ?_
  rcases placement?_sync_cases s.keys s.chain.toChainView s.now r none hhash with
    ⟨same, -⟩ | ⟨-, encodable, new⟩ | ⟨e, he, merged⟩
  · exact hl r.hash r' link (same.symm.trans h)
  · obtain ⟨rfl, rfl⟩ := Prod.mk.inj (Option.some.inj (new.symm.trans h))
    exact ⟨rfl, hr, encodable, .inl (Bytes.isZero_iff.2 rfl), fun b hb => absurd hb (hnot b)⟩
  · obtain ⟨rfl, rfl⟩ := Prod.mk.inj (Option.some.inj (merged.symm.trans h))
    rw [Entry.link_offered_none, e.link.merge_unlinked]
    exact hl.placed he

/-- Seeing a record in a block puts its entry there, unless the store refuses. -/
theorem connectRecord (ids : Identified known mined) (s : Surroundings) {block : Block}
    (hblock : mined block) (hr : r ∈ block.records) (honly : ∀ b, holds b r → b = block)
    (haccepts : l.store.refused ≠ some .entry) :
    AllPlaced known mined (fun b r' => holds b r' ∨ b = block ∧ r' = r)
      ((Operation.sync r (some block)).apply s l) := by
  have hhash : ∀ {hash e}, l.entry? hash = some e → e.hash = hash := fun he => (hl.placed he).1
  have here : r.encode? ≠ none → Placed known mined
      (fun b r' => holds b r' ∨ b = block ∧ r' = r) r (.toBlock block r.hash) := by
    intro encodable
    have target := MerkleLink.block_toBlock block r.hash
    refine ⟨ids.records hblock r hr, encodable,
      .inr ⟨block, hblock, hr, target, MerkleLink.index_toBlock hr⟩, fun b hb => ?_⟩
    have hb : b = block := hb.elim (honly b) And.left
    rw [hb, target]
  refine hl.of_others (fun _ hne => placement?_sync_of_ne _ _ _ _ _ hhash hne)
    (fun b r' hb hne => hb.resolve_right fun h => hne (congrArg Record.hash h.2))
    fun r' link h => ?_
  rcases placement?_sync_cases s.keys s.chain.toChainView s.now r (some block) hhash with
    ⟨same, reason⟩ | ⟨-, encodable, new⟩ | ⟨e, he, merged⟩
  · -- the store takes what is held
    obtain ⟨e, he, -, -⟩ := placement?_eq_some_iff.1 (same.symm.trans h)
    exact absurd (reason e he) fun h => h.elim haccepts (hl.placed he).2.encodable
  · obtain ⟨rfl, rfl⟩ := Prod.mk.inj (Option.some.inj (new.symm.trans h))
    exact ⟨rfl, here encodable⟩
  · obtain ⟨heq, placed⟩ := hl.placed he
    have same : e.record = r := ids.record placed.known (ids.records hblock r hr) heq
    obtain ⟨rfl, rfl⟩ := Prod.mk.inj (Option.some.inj (merged.symm.trans h))
    rw [Entry.link_offered_some, e.link.merge_toBlock (ids.nonzero hblock) hr]
    exact ⟨heq, same ▸ here (same ▸ placed.encodable)⟩

end AllPlaced

/-! ## A chain that grows and shrinks -/

/-- A block of the chain holds the record. -/
def InChain (blocks : List Block) (r : Record) : Prop := ∃ block ∈ blocks, r ∈ block.records

/-- All records of a block are seen in it. -/
def seeBlock (s : Surroundings) (block : Block) (l : Ledger) : Ledger :=
  l.after (block.records.map fun r => (s, .sync r (some block)))

/-- A run in which the ledger is told of a chain as it grows and shrinks, and of records outside of
it. The blocks are those of the chain then, the tip first. Records seen are among those `known`,
blocks among those `mined`. -/
inductive FollowsChain (known : Record → Prop) (mined : Block → Prop) (settings : Settings)
    (store : Store) : Ledger → List Block → Prop
  /-- Before the first block nothing is held. -/
  | start : FollowsChain known mined settings store (empty settings store) []
  /-- A block is connected whose records are in no other block of the chain. Each of them is seen in
  the block, and the store takes entries. -/
  | connect {l : Ledger} {blocks : List Block} (s : Surroundings) (block : Block) :
    FollowsChain known mined settings store l blocks → mined block →
    (∀ r ∈ block.records, ¬ InChain blocks r) → l.store.refused ≠ some .entry →
    FollowsChain known mined settings store (seeBlock s block l) (block :: blocks)
  /-- The tip is disconnected, of which no record is seen. -/
  | disconnect {l : Ledger} {block : Block} {blocks : List Block} :
    FollowsChain known mined settings store l (block :: blocks) →
    FollowsChain known mined settings store l blocks
  /-- A record is seen unconfirmed that no block of the chain holds. -/
  | announce {l : Ledger} {blocks : List Block} (s : Surroundings) (r : Record) :
    FollowsChain known mined settings store l blocks → known r → ¬ InChain blocks r →
    FollowsChain known mined settings store ((Operation.sync r none).apply s l) blocks
  /-- An entry is removed. -/
  | erase {l : Ledger} {blocks : List Block} (s : Surroundings) (hash : Hash256) :
    FollowsChain known mined settings store l blocks →
    FollowsChain known mined settings store ((Operation.erase hash).apply s l) blocks
  /-- Something is done that neither takes in a record nor removes one. -/
  | quiet {l : Ledger} {blocks : List Block} (s : Surroundings) (op : Operation) :
    FollowsChain known mined settings store l blocks → op.IsQuiet ∨ op = .deriveNullifiers →
    FollowsChain known mined settings store (op.apply s l) blocks

/-- Once all records of a block are seen in it, all entries have the right links for the chain with
the block. -/
theorem AllPlaced.connect (ids : Identified known mined) (s : Surroundings) {block : Block}
    {blocks : List Block} (hblock : mined block) (hnew : ∀ r ∈ block.records, ¬ InChain blocks r)
    (haccepts : l.store.refused ≠ some .entry)
    (hl : AllPlaced known mined (fun b r => b ∈ blocks ∧ r ∈ b.records) l) :
    AllPlaced known mined (fun b r => b ∈ block :: blocks ∧ r ∈ b.records)
      (seeBlock s block l) := by
  -- of the records seen so far each is held by the block
  have seen : ∀ (todo : List Record) (l : Ledger) (holds : Block → Record → Prop),
      (∀ r ∈ todo, r ∈ block.records) → (∀ r ∈ todo, ∀ b, holds b r → b = block) →
      l.store.refused ≠ some .entry → AllPlaced known mined holds l →
      AllPlaced known mined (fun b r => holds b r ∨ b = block ∧ r ∈ todo)
        (l.after (todo.map fun r => (s, .sync r (some block)))) := by
    intro todo
    induction todo with
    | nil =>
      intro l holds _ _ _ hl
      exact hl.mono (fun _ _ h => h) fun b r hb => hb.resolve_right fun h => nomatch h.2
    | cons r rest ih =>
      intro l holds htodo honly haccepts hl
      have first := hl.connectRecord ids s hblock (htodo r List.mem_cons_self)
        (honly r List.mem_cons_self) haccepts
      refine (ih _ _ (fun r' hr' => htodo r' (List.mem_cons_of_mem _ hr')) ?_ ?_ first).mono
        (fun _ _ h => h) ?_
      · exact fun r' hr' b hb => hb.elim (honly r' (List.mem_cons_of_mem _ hr') b) And.left
      · show (sync _ _ _ r (some block) l).2.store.refused ≠ _
        rw [refused_sync _ _ _ _ _ fun he => (hl.placed he).1]
        exact haccepts
      · rintro b r' (hb | ⟨hb, hr'⟩)
        · exact .inl (.inl hb)
        · exact (List.mem_cons.1 hr').elim (fun heq => .inl (.inr ⟨hb, heq⟩))
            fun hr' => .inr ⟨hb, hr'⟩
  refine (seen block.records l _ (fun _ hr => hr) ?_ haccepts hl).mono (fun _ _ h => h) ?_
  · exact fun r hr b hb => absurd ⟨b, hb⟩ (hnew r hr)
  · rintro b r ⟨hb, hr⟩
    rcases List.mem_cons.1 hb with rfl | hb
    · exact .inr ⟨rfl, hr⟩
    · exact .inl ⟨hb, hr⟩

namespace FollowsChain

variable {settings : Settings} {store : Store} {blocks : List Block}

/-- The links are right all along a run that follows a chain. -/
theorem allPlaced (ids : Identified known mined)
    (hl : FollowsChain known mined settings store l blocks) :
    AllPlaced known mined (fun b r => b ∈ blocks ∧ r ∈ b.records) l := by
  induction hl with
  | start => exact fun hash r link h => nomatch h
  | connect s block _ hblock hnew haccepts ih => exact ih.connect ids s hblock hnew haccepts
  | disconnect _ ih =>
    exact ih.mono (fun _ _ h => h) fun b r hb => ⟨List.mem_cons_of_mem _ hb.1, hb.2⟩
  | announce s r _ hr hnot ih => exact ih.announce s hr fun b hb => hnot ⟨b, hb⟩
  | erase s hash _ ih =>
    refine ih.mono (fun hash' p h => ?_) fun _ _ hb => hb
    obtain ⟨e, he, rfl⟩ := Option.map_eq_some_iff.1 h
    exact Option.map_eq_some_iff.2 ⟨e, entry?_of_erase he, rfl⟩
  | quiet s op _ hop ih =>
    exact ih.mono (fun hash p h => (placement?_quiet s hop _ hash).symm.trans h) fun _ _ hb => hb

/-- The blocks of the chain are among those mined. -/
theorem mined_of_mem (hl : FollowsChain known mined settings store l blocks) :
    ∀ b ∈ blocks, mined b := by
  induction hl with
  | start => exact fun b hb => nomatch hb
  | connect s block _ hblock _ _ ih =>
    exact fun b hb => (List.mem_cons.1 hb).elim (fun heq => heq ▸ hblock) (ih b)
  | disconnect _ ih => exact fun b hb => ih b (List.mem_cons_of_mem _ hb)
  | announce _ _ _ _ _ ih | erase _ _ _ ih | quiet _ _ _ _ ih => exact ih

/-- The index of spenders is in step with the entries. -/
theorem spendIndexed (hl : FollowsChain known mined settings store l blocks) : SpendIndexed l := by
  induction hl with
  | start => exact spendIndexed_empty settings store
  | connect _ _ _ _ _ _ ih => exact after_keeps (fun s op _ hl => hl.apply s op) _ ih
  | disconnect _ ih => exact ih
  | announce s _ _ _ _ ih | erase s _ _ ih | quiet s _ _ _ ih => exact ih.apply s _

end FollowsChain

/-! ## Depths -/

/-- The view is that of the chain of these blocks, the tip first. -/
structure Reports (view : ChainView) (blocks : List Block) : Prop where
  tipHeight : view.tipHeight = (blocks.length : Int) - 1
  heightOf? : ∀ hash height, view.heightOf? hash = some height ↔
    ∃ (n : Nat) (block : Block), blocks.reverse[n]? = some block ∧ block.hash = hash ∧ height = n

section
variable {settings : Settings} {store : Store} {blocks : List Block} {view : ChainView} {e : Entry}
  (ids : Identified known mined) (hl : FollowsChain known mined settings store l blocks)
  (hview : Reports view blocks)
include ids hl hview

/-- An entry that a block of the chain holds is confirmed at that block's height. -/
theorem confirmedHeight?_of_inChain (he : l.entry? hash = some e) {n : Nat} {block : Block}
    (hn : blocks.reverse[n]? = some block) (hr : e.record ∈ block.records) :
    confirmedHeight? view e = some n := by
  obtain ⟨-, placed⟩ := (hl.allPlaced ids).placed he
  have hblock : block ∈ blocks := List.mem_reverse.1 (List.mem_of_getElem? hn)
  have target := placed.active block ⟨hblock, hr⟩
  have linked : e.link.block.isZero = false := by
    rw [target]
    exact ids.nonzero (hl.mined_of_mem block hblock)
  obtain ⟨-, -, -, -, hindex⟩ := placed.linked.resolve_left fun h => nomatch linked.symm.trans h
  unfold confirmedHeight?
  rw [linked, Bool.false_or, if_neg (by simpa using hindex), target]
  exact (hview.heightOf? _ _).2 ⟨n, block, hn, rfl, rfl⟩

/-- The others are not confirmed, even if they are linked to a block that is gone. -/
theorem confirmedHeight?_of_not_inChain (he : l.entry? hash = some e)
    (hnot : ¬ InChain blocks e.record) : confirmedHeight? view e = none := by
  obtain ⟨-, placed⟩ := (hl.allPlaced ids).placed he
  cases hc : confirmedHeight? view e with
  | none => rfl
  | some height =>
    unfold confirmedHeight? at hc
    split at hc
    · cases hc
    next hlinked =>
    obtain ⟨b, hb, hr, target, -⟩ := placed.linked.resolve_left fun h => hlinked (by rw [h]; rfl)
    obtain ⟨n, block, hn, hhash, -⟩ := (hview.heightOf? _ _).1 hc
    have hblock : block ∈ blocks := List.mem_reverse.1 (List.mem_of_getElem? hn)
    obtain rfl := ids.block (hl.mined_of_mem block hblock) hb (hhash.trans target)
    exact absurd ⟨block, hblock, hr⟩ hnot

/-- An entry has no height exactly if no block of the chain holds its record. -/
theorem confirmedHeight?_eq_none_iff (he : l.entry? hash = some e) :
    confirmedHeight? view e = none ↔ ¬ InChain blocks e.record := by
  refine ⟨?_, confirmedHeight?_of_not_inChain ids hl hview he⟩
  rintro hu ⟨block, hblock, hr⟩
  obtain ⟨n, hn⟩ := List.mem_iff_getElem?.1 (List.mem_reverse.2 hblock)
  rw [confirmedHeight?_of_inChain ids hl hview he hn hr] at hu
  cases hu

/-- Confirmations follow the chain, however it grows and shrinks. The depth of an entry that a block
of the chain holds is counted from that block. That of any other is 0 or -1, and it is 0 exactly if,
of all other entries that claim something it claims, none is in a block of the chain and none was
inserted before it. -/
theorem confirmations_follow (he : l.entry? hash = some e) :
    (∀ (n : Nat) (block : Block), blocks.reverse[n]? = some block → e.record ∈ block.records →
      l.depthOf view e = view.tipHeight - n + 1) ∧
    (¬ InChain blocks e.record → (l.depthOf view e = 0 ∨ l.depthOf view e = -1) ∧
      (l.depthOf view e = 0 ↔ ∀ key ∈ e.spendKeys, ∀ hash' e', l.entry? hash' = some e' →
        hash' ≠ hash → key ∈ e'.spendKeys →
          ¬ InChain blocks e'.record ∧ ¬ e'.info.order < e.info.order)) := by
  refine ⟨fun n block hn hr =>
    depthOf_of_confirmed (confirmedHeight?_of_inChain ids hl hview he hn hr), fun hnot => ?_⟩
  have hu := confirmedHeight?_of_not_inChain ids hl hview he hnot
  refine ⟨?_, (hl.spendIndexed.depthOf_eq_zero_iff he hu).trans ?_⟩
  · rw [depthOf_of_unconfirmed hu]
    split
    · exact .inr rfl
    · exact .inl rfl
  · refine forall₅_congr fun key hk hash' e' he' => ?_
    rw [confirmedHeight?_eq_none_iff ids hl hview he']

end

/-! ## A reorganisation -/

/-- A list of blocks with distinct hashes reports itself. -/
theorem reports_ofBlocks {blocks : List Block} (h : (blocks.map (·.hash)).Nodup) :
    Reports (ChainSource.ofBlocks blocks.reverse).toChainView blocks := by
  have distinct : (blocks.reverse.map (·.hash)).Nodup := by
    rw [List.map_reverse]
    exact List.nodup_reverse.2 h
  refine ⟨?_, fun hash height => ?_⟩
  · show (blocks.reverse.length : Int) - 1 = _
    rw [List.length_reverse]
  · show (blocks.reverse.findIdx? (·.hash == hash)).map Int.ofNat = some height ↔ _
    constructor
    · intro hfound
      obtain ⟨n, hn, rfl⟩ := Option.map_eq_some_iff.1 hfound
      obtain ⟨hlt, heq, -⟩ := List.findIdx?_eq_some_iff_getElem.1 hn
      exact ⟨n, _, List.getElem?_eq_getElem hlt, eq_of_beq heq, rfl⟩
    · rintro ⟨n, block, hn, rfl, rfl⟩
      obtain ⟨hlt, rfl⟩ := List.getElem?_eq_some_iff.1 hn
      refine Option.map_eq_some_iff.2
        ⟨n, List.findIdx?_eq_some_iff_getElem.2 ⟨hlt, beq_self_eq_true _, fun j hj heq => ?_⟩, rfl⟩
      have := List.pairwise_iff_getElem.1 distinct j n
        (by rw [List.length_map]; omega) (by rwa [List.length_map]) hj
      simp only [List.getElem_map] at this
      exact this (eq_of_beq heq)

/-- Transactions that spend the same output, one for each lock time. -/
def rivalSpend (lockTime : UInt32) : Transaction :=
  { TxBody.blank with
    inputs := [⟨⟨Bytes.filled 32 0x77, 0⟩, default, 0⟩]
    outputs := [Simulation.payment Simulation.ourTag 1000]
    lockTime }.freeze

/-- The block with the second of them. -/
def goneBlock : Block := ⟨Bytes.filled 32 0xb1, 0, [rivalSpend 1], []⟩

/-- The block with the first of them. -/
def tipBlock : Block := ⟨Bytes.filled 32 0xb2, 0, [rivalSpend 0], []⟩

/-- A transaction is announced. -/
def announced (s : Surroundings) (tx : Transaction) : Ledger :=
  (Operation.sync (.transaction tx) none).apply s (empty Settings.default Store.empty)

/-- The first of them is announced, the second is mined, and then its block makes way for one with
the first. -/
def reorganised (s : Surroundings) : Ledger :=
  seeBlock s tipBlock (seeBlock s goneBlock (announced s (rivalSpend 0)))

/-- Both are held then, the second with a link to the block that is gone. -/
theorem reorganised_computed :
    (announced Follower.exampleSurroundings (rivalSpend 0)).store.refused = none ∧
      (seeBlock Follower.exampleSurroundings goneBlock
        (announced Follower.exampleSurroundings (rivalSpend 0))).store.refused = none ∧
      (Ledger.entry? (reorganised Follower.exampleSurroundings) (rivalSpend 0).hash).isSome ∧
      (Ledger.entry? (reorganised Follower.exampleSurroundings) (rivalSpend 1).hash).any
        (·.link.block == goneBlock.hash) = true ∧
      (rivalSpend 0).hash ≠ (rivalSpend 1).hash ∧
      .prevout ⟨Bytes.filled 32 0x77, 0⟩ ∈ (Record.transaction (rivalSpend 0)).spendKeys ∧
      .prevout ⟨Bytes.filled 32 0x77, 0⟩ ∈ (Record.transaction (rivalSpend 1)).spendKeys := by
  decide +kernel

/-- The records of the example. -/
def IsRival (r : Record) : Prop :=
  r = .transaction (rivalSpend 0) ∨ r = .transaction (rivalSpend 1)

/-- The blocks of the example. -/
def IsRivalBlock (b : Block) : Prop := b = goneBlock ∨ b = tipBlock

/-- No two records of the example have one hash, and no two blocks. -/
theorem identified_rivals : Identified IsRival IsRivalBlock := by
  obtain ⟨-, -, -, -, other, -⟩ := reorganised_computed
  have others : goneBlock.hash ≠ tipBlock.hash := by decide
  constructor
  case record =>
    rintro r r' (rfl | rfl) (rfl | rfl) h
    · rfl
    · exact absurd h other
    · exact absurd h.symm other
    · rfl
  case block =>
    rintro b b' (rfl | rfl) (rfl | rfl) h
    · rfl
    · exact absurd h others
    · exact absurd h.symm others
    · rfl
  case nonzero =>
    rintro b (rfl | rfl) <;> decide
  case records =>
    rintro b (rfl | rfl) r hr
    · exact .inr (List.mem_singleton.1 hr)
    · exact .inl (List.mem_singleton.1 hr)

/-- The example is a run, in which one block takes the place of another. -/
theorem followsChain_reorganised : FollowsChain IsRival IsRivalBlock Settings.default Store.empty
    (reorganised Follower.exampleSurroundings) [tipBlock] := by
  obtain ⟨accepts, accepts', -⟩ := reorganised_computed
  have unheld : ∀ r, ¬ InChain [] r := fun r h => nomatch h.choose_spec.1
  have first : FollowsChain IsRival IsRivalBlock Settings.default Store.empty
      (announced Follower.exampleSurroundings (rivalSpend 0)) [] :=
    .announce _ _ .start (.inl rfl) (unheld _)
  have second := first.connect Follower.exampleSurroundings goneBlock (.inl rfl)
    (fun r _ => unheld r) (accepts ▸ nofun)
  exact second.disconnect.connect Follower.exampleSurroundings tipBlock (.inr rfl)
    (fun r _ => unheld r) (accepts' ▸ nofun)

/-- After the reorganisation, the first transaction has one confirmation. The second is conflicted,
although it is still linked to the block that held it. -/
theorem confirmations_follow_reorganised :
    let l := reorganised Follower.exampleSurroundings
    let view := (ChainSource.ofBlocks [tipBlock]).toChainView
    ∃ x y, l.entry? (rivalSpend 0).hash = some x ∧ l.entry? (rivalSpend 1).hash = some y ∧
      y.link.block = goneBlock.hash ∧ l.depthOf view x = 1 ∧ l.depthOf view y = -1 := by
  intro l view
  obtain ⟨-, -, first, second, other, claimed, claimed'⟩ := reorganised_computed
  obtain ⟨x, hx⟩ := Option.isSome_iff_exists.1 first
  obtain ⟨y, hy, gone⟩ := (Option.any_eq_true _ _).1 second
  have placed := followsChain_reorganised.allPlaced identified_rivals
  have recordOf : ∀ {hash e} {tx : Transaction}, l.entry? hash = some e → hash = tx.hash →
      IsRival (.transaction tx) → e.record = .transaction tx := fun he hhash htx =>
    identified_rivals.record (placed.placed he).2.known htx ((placed.placed he).1.trans hhash)
  have hxr : x.record = .transaction (rivalSpend 0) := recordOf hx rfl (.inl rfl)
  have hyr : y.record = .transaction (rivalSpend 1) := recordOf hy rfl (.inr rfl)
  have inTip : .transaction (rivalSpend 0) ∈ tipBlock.records := List.mem_cons_self
  have notInTip : ¬ InChain [tipBlock] (.transaction (rivalSpend 1)) := by
    rintro ⟨b, hb, hr⟩
    obtain rfl := List.mem_singleton.1 hb
    exact other (congrArg Record.hash (List.mem_singleton.1 hr)).symm
  have view_eq : Reports view [tipBlock] :=
    reports_ofBlocks (by decide : ([tipBlock].map (·.hash)).Nodup)
  refine ⟨x, y, hx, hy, eq_of_beq gone, ?_, ?_⟩
  · have follows := confirmations_follow identified_rivals followsChain_reorganised view_eq hx
    exact follows.1 0 tipBlock rfl (hxr ▸ inTip)
  · have follows := confirmations_follow identified_rivals followsChain_reorganised view_eq hy
    obtain ⟨depth, zero⟩ := follows.2 (hyr ▸ notInTip)
    refine depth.resolve_left fun hd => ?_
    rw [← hxr] at claimed inTip
    rw [← hyr] at claimed'
    obtain ⟨outside, -⟩ := zero.1 hd _ claimed' _ x hx other claimed
    exact outside ⟨tipBlock, List.mem_singleton_self _, inTip⟩

end Ledger
end ShieldedLedger
