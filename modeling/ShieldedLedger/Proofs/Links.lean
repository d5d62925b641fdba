import ShieldedLedger.Proofs.Confirmations
import ShieldedLedger.Proofs.Merkle
import ShieldedLedger.Proofs.Steps

/-!
# Where links lead

A link says which block a record is in, at which of its leaves, and by which branch the leaf is tied
to the root. The link that is made from a block is right about it (`MerkleLink.locatedIn_toBlock`).
Merging takes over the block of the incoming link and its position each under a condition of its
own, so the two may come from different blocks: a record that is located in one block and is then
seen with another one that does not hold it keeps its position, but not the block.

So the position of an entry is always one that the record has in some block it was seen with. In the
block that the entry names it is right exactly if that block holds the record at all
(`located_iff_held`), that is, if the last block the record was seen with does.
-/

namespace ShieldedLedger

/-! ## Links to one block -/

namespace MerkleLink

/-- The link gives the position of a leaf with the hash in the block, and the branch from there to
the block's root. -/
def LocatedIn (link : MerkleLink) (hash : Hash256) (block : Block) : Prop :=
  ∃ index, link.index = some index ∧ block.leafHashes[index]? = some hash ∧
    checkMerkleBranch hash link.branch index = block.merkleRoot

variable {link : MerkleLink} {hash : Hash256} {block block' : Block}

/-- A position tells that the record is in the block. -/
theorem LocatedIn.mem (h : link.LocatedIn hash block) : hash ∈ block.leafHashes := by
  obtain ⟨index, -, leaf, -⟩ := h
  exact List.mem_of_getElem? leaf

/-- Only the leaves of the block matter. -/
theorem LocatedIn.congr (h : link.LocatedIn hash block)
    (same : block'.leafHashes = block.leafHashes) : link.LocatedIn hash block' := by
  obtain ⟨index, hindex, leaf, root⟩ := h
  refine ⟨index, hindex, same ▸ leaf, root.trans ?_⟩
  unfold Block.merkleRoot
  rw [same]

/-- Without a position the block does not matter, the link that is made from it names it. -/
theorem toBlock_of_not_mem (h : hash ∉ block.leafHashes) :
    toBlock block hash = ⟨block.hash, [], none⟩ := by
  have absent : block.leafIndex? hash = none := by
    refine List.findIdx?_eq_none_iff.2 fun leaf hleaf => ?_
    rw [beq_eq_false_iff_ne]
    rintro rfl
    exact h hleaf
  unfold toBlock
  rw [absent]

/-- The link made from a block that holds a record is right about it. -/
theorem locatedIn_toBlock (h : hash ∈ block.leafHashes) :
    (toBlock block hash).LocatedIn hash block := by
  have found : (block.leafIndex? hash).isSome := by
    unfold Block.leafIndex?
    rw [List.findIdx?_isSome, List.any_eq_true]
    exact ⟨hash, h, beq_self_eq_true _⟩
  obtain ⟨index, hindex⟩ := Option.isSome_iff_exists.1 found
  obtain ⟨hlt, heq, -⟩ := List.findIdx?_eq_some_iff_getElem.1 hindex
  have leaf : block.leafHashes[index]? = some hash := by
    rw [List.getElem?_eq_getElem hlt, eq_of_beq heq]
  have link : toBlock block hash = ⟨block.hash, block.merkleBranch index, some index⟩ := by
    unfold toBlock
    rw [hindex]
  refine ⟨index, by rw [link], leaf, ?_⟩
  rw [link]
  unfold Block.merkleRoot
  rw [Merkle.root?_eq_fold_branch hashPair block.leafHashes leaf]
  rfl

/-- Merging takes over the incoming block, unless there is none. -/
theorem block_merge (stored link : MerkleLink) :
    (stored.merge link).block = if link.block.isZero then stored.block else link.block := by
  unfold merge
  cases link.index <;> rfl

/-! ## Links to one block after another -/

/-- The record was seen with no block of hash zero that holds it: as the block of a link, zero
stands for none. -/
def NeverAtZero (seen : Block → Prop) (hash : Hash256) : Prop :=
  ∀ b, seen b → b.hash.isZero = true → hash ∉ b.leafHashes

/-- What a link says of a record that was seen with some of the blocks in `seen`. -/
structure MadeFrom (seen : Block → Prop) (hash : Hash256) (link : MerkleLink) : Prop where
  /-- It names one of the blocks, or none. -/
  named : (∃ b, seen b ∧ b.hash = link.block) ∨ (link.block = Bytes.zero ∧ link.index = none)
  /-- The position is one that the record has in one of the blocks. -/
  located : link.index ≠ none → ∃ b, seen b ∧ link.LocatedIn hash b
  /-- If the block that is named holds the record, the position is one in this block. -/
  right : NeverAtZero seen hash → ∀ b, seen b → b.hash = link.block → hash ∈ b.leafHashes →
    link.LocatedIn hash b

variable {seen : Block → Prop}

/-- No link says anything wrong of any blocks. -/
theorem MadeFrom.unlinked : MadeFrom seen hash MerkleLink.unlinked where
  named := .inr ⟨rfl, rfl⟩
  located h := absurd rfl h
  right never b hb hzero hmem := absurd hmem (never b hb (Bytes.isZero_iff.2 hzero))

variable (same : ∀ b b', seen b → seen b' → b.hash = b'.hash → b.leafHashes = b'.leafHashes)
include same

/-- Nor does a link to one of the blocks. -/
theorem MadeFrom.toBlock (hblock : seen block) :
    MadeFrom seen hash (MerkleLink.toBlock block hash) where
  named := .inl ⟨block, hblock, (block_toBlock block hash).symm⟩
  located h := by
    by_cases held : hash ∈ block.leafHashes
    · exact ⟨block, hblock, locatedIn_toBlock held⟩
    · rw [toBlock_of_not_mem held] at h
      exact absurd rfl h
  right _ b hb hname hmem := by
    have leaves := same b block hb hblock (hname.trans (block_toBlock block hash))
    exact (locatedIn_toBlock (leaves ▸ hmem)).congr leaves

/-- A link that is merged with one to a further block is made from it too. -/
theorem MadeFrom.merge_toBlock (h : MadeFrom seen hash link) (hblock : seen block) :
    MadeFrom seen hash (link.merge (MerkleLink.toBlock block hash)) := by
  have target := block_toBlock block hash
  by_cases held : hash ∈ block.leafHashes
  · obtain ⟨index, hindex, leaf, root⟩ := locatedIn_toBlock held
    cases hzero : block.hash.isZero with
    | false =>
      -- the new link replaces the old one
      rw [link.merge_of_placed (by rw [target, hzero]) (by rw [hindex]; exact nofun)]
      exact MadeFrom.toBlock same hblock
    | true =>
      -- the position is taken over and the block stays
      have merged : link.merge (MerkleLink.toBlock block hash) =
          { MerkleLink.toBlock block hash with block := link.block } := by
        simp [merge, target, hzero, hindex]
      rw [merged]
      refine ⟨.inl ?_, fun _ => ⟨block, hblock, index, hindex, leaf, root⟩,
        fun never => absurd held (never block hblock hzero)⟩
      rcases h.named with named | ⟨unnamed, -⟩
      · exact named
      · exact ⟨block, hblock, (Bytes.isZero_iff.1 hzero).trans unnamed.symm⟩
  · rw [toBlock_of_not_mem held]
    cases hzero : block.hash.isZero with
    | false =>
      -- the block is taken over and the position stays
      have merged : link.merge ⟨block.hash, [], none⟩ = { link with block := block.hash } := by
        simp [merge, hzero]
      rw [merged]
      exact ⟨.inl ⟨block, hblock, rfl⟩, h.located,
        fun _ b hb hname hmem => absurd (same b block hb hblock hname ▸ hmem) held⟩
    | true =>
      have merged : link.merge ⟨block.hash, [], none⟩ = link := by
        simp [merge, hzero]
      rwa [merged]

end MerkleLink

/-- The block that a record is seen with in an operation. -/
def Operation.block? : Operation → Option Block
  | .sync _ block | .addIfRelevant _ block _ => block
  | _ => none

namespace Ledger

variable {seen : Block → Prop} {l l' : Ledger} {hash : Hash256}

/-! ## Links of entries -/

/-- All entries are found by their hashes, and their links are made from the blocks in `seen`. -/
def AllMadeFrom (seen : Block → Prop) (l : Ledger) : Prop :=
  ∀ hash r link, l.placement? hash = some (r, link) →
    r.hash = hash ∧ MerkleLink.MadeFrom seen hash link

/-- An empty ledger has no links. -/
theorem allMadeFrom_empty (settings : Settings) (store : Store) :
    AllMadeFrom seen (empty settings store) := fun _ _ _ h => nomatch h

/-- What is said of all placements, for one entry. -/
theorem AllMadeFrom.entry (hl : AllMadeFrom seen l) {e : Entry} (he : l.entry? hash = some e) :
    e.hash = hash ∧ MerkleLink.MadeFrom seen hash e.link :=
  hl hash e.record e.link (placement?_eq_some_iff.2 ⟨e, he, rfl, rfl⟩)

/-- A ledger with no other placements has no other links. -/
theorem AllMadeFrom.of_placements (hl : AllMadeFrom seen l)
    (h : ∀ hash p, l'.placement? hash = some p → l.placement? hash = some p) :
    AllMadeFrom seen l' := fun hash r link hp => hl hash r link (h hash _ hp)

/-- Operations that neither take in nor remove a record leave the links alone. -/
theorem AllMadeFrom.quiet (hl : AllMadeFrom seen l) (s : Surroundings) {op : Operation}
    (hop : op.IsQuiet ∨ op = .deriveNullifiers) : AllMadeFrom seen (op.apply s l) :=
  hl.of_placements fun hash _ h => (placement?_quiet s hop l hash).symm.trans h

/-- An erasure leaves the other links alone. -/
theorem AllMadeFrom.erase (hl : AllMadeFrom seen l) (hash : Hash256) :
    AllMadeFrom seen (l.erase hash).2 := by
  refine hl.of_placements fun hash' p h => ?_
  obtain ⟨e, he, rfl⟩ := Option.map_eq_some_iff.1 h
  exact Option.map_eq_some_iff.2 ⟨e, entry?_of_erase he, rfl⟩

section
variable (same : ∀ b b', seen b → seen b' → b.hash = b'.hash → b.leafHashes = b'.leafHashes)
include same

/-- Offering an entry with a record that is seen keeps the links right. -/
theorem keeps_allMadeFrom_addEntry {keys : KeyView} {chain : ChainView} {now : Int64} {r : Record}
    {block : Option Block} (hblock : ∀ b, block = some b → seen b) :
    Keeps (AllMadeFrom seen) (addEntry chain now ((Entry.ofRecord r).offered keys block)) := by
  intro l hl
  have hhash : ∀ {hash e}, l.entry? hash = some e → e.hash = hash := fun he => (hl.entry he).1
  cases ha : addEntry chain now ((Entry.ofRecord r).offered keys block) l with
  | mk outcome l' =>
  cases outcome with
  | error e =>
    rcases addEntry_outcomes chain now ((Entry.ofRecord r).offered keys block) l with
      ⟨_, h, -⟩ | ⟨-, -, _, -, h⟩ | ⟨_, _, -, -, h⟩ <;> rw [ha] at h
    · exact congrArg Prod.snd h ▸ hl
    · cases h
    · cases h
  | ok =>
    intro hash r' link hp
    rw [placement?_addEntry chain now hhash ha hash] at hp
    split at hp
    · next hh =>
      subst hh
      cases he : l.entry? r.hash with
      | none =>
        rw [entryWith_of_none he] at hp
        obtain ⟨rfl, rfl⟩ := Prod.mk.inj (Option.some.inj hp)
        refine ⟨rfl, ?_⟩
        cases block with
        | none => exact .unlinked
        | some block => exact .toBlock same (hblock block rfl)
      | some e =>
        obtain ⟨heq, made⟩ := hl.entry he
        rw [entryWith_of_some he] at hp
        obtain ⟨rfl, rfl⟩ := Prod.mk.inj (Option.some.inj hp)
        refine ⟨heq, ?_⟩
        cases block with
        | none => exact (MerkleLink.merge_unlinked e.link).symm ▸ made
        | some block => exact made.merge_toBlock same (hblock block rfl)
    · exact hl hash r' link hp

/-- So does taking in a record. -/
theorem keeps_allMadeFrom_addIfRelevant {keys : KeyView} {chain : ChainView} {now : Int64}
    {r : Record} {block : Option Block} {update : Bool} (hblock : ∀ b, block = some b → seen b) :
    Keeps (AllMadeFrom seen)
      (addIfRelevant keys chain now (Entry.ofRecord r) block update) := by
  intro l hl
  rcases addIfRelevant_outcomes keys chain now (Entry.ofRecord r) block update l with
    ⟨h, -⟩ | ⟨_, h, -⟩ | h <;> rw [h]
  · exact hl
  · exact hl
  · exact keeps_allMadeFrom_addEntry same hblock l hl

/-- A record that is seen in one of the blocks, or unconfirmed, gets a link to them. -/
theorem keeps_allMadeFrom_sync {keys : KeyView} {chain : ChainView} {now : Int64} {r : Record}
    {block : Option Block} (hblock : ∀ b, block = some b → seen b) :
    Keeps (AllMadeFrom seen) (sync keys chain now r block) := by
  unfold sync
  refine Keeps.bind (keeps_allMadeFrom_addIfRelevant same hblock) fun taken => ?_
  split
  · exact keeps_change fun l hl => hl.of_placements fun hash _ h =>
      ((agree_markAffectedDirty (fun _ _ => rfl) r).entries hash).symm.trans h
  · exact Keeps.pure _

/-- Every single step keeps the links right in which no block is seen but those in `seen`. -/
theorem AllMadeFrom.step (hl : AllMadeFrom seen l) (s : Surroundings) {op : Operation}
    (hop : op.IsStep fun _ => True) (hblock : ∀ b, op.block? = some b → seen b) :
    AllMadeFrom seen (op.apply s l) := by
  cases op with
  | sync r block => exact keeps_allMadeFrom_sync same hblock l hl
  | addIfRelevant incoming block update =>
    obtain ⟨r, -, rfl⟩ := hop
    exact keeps_allMadeFrom_addIfRelevant same hblock l hl
  | erase hash => exact hl.erase hash
  | deriveNullifiers => exact hl.quiet s (.inr rfl)
  | addEntry | rescan => exact absurd hop id
  | _ => exact hl.quiet s (.inl trivial)

/-- So does a run of such steps. -/
theorem allMadeFrom_after : ∀ steps : List (Surroundings × Operation),
    (∀ step ∈ steps, step.2.IsStep fun _ => True) →
    (∀ step ∈ steps, ∀ b, step.2.block? = some b → seen b) → ∀ {l : Ledger},
    AllMadeFrom seen l → AllMadeFrom seen (l.after steps)
  | [], _, _, _, hl => hl
  | step :: rest, hsteps, hblocks, _, hl =>
    allMadeFrom_after rest (fun s hs => hsteps s (List.mem_cons_of_mem _ hs))
      (fun s hs => hblocks s (List.mem_cons_of_mem _ hs))
      (hl.step same step.1 (hsteps step List.mem_cons_self) (hblocks step List.mem_cons_self))

end

/-- An entry names the block that its record was last seen with, whether that holds it or not. -/
theorem block_of_sync {keys : KeyView} {chain : ChainView} {now : Int64} {r : Record}
    {block : Block} {e : Entry} (hhash : ∀ {hash e}, l.entry? hash = some e → e.hash = hash)
    (hblock : block.hash.isZero = false)
    (hsync : sync keys chain now r (some block) l = (.ok (), l'))
    (he : l'.entry? r.hash = some e) : e.link.block = block.hash := by
  have target := MerkleLink.block_toBlock block r.hash
  rcases sync_outcomes keys chain now r (some block) l with
    ⟨_, h, hnot⟩ | ⟨_, h, -⟩ | ⟨l₁, ha, h⟩ <;> rw [hsync] at h
  · obtain ⟨-, rfl⟩ := Prod.mk.inj h
    exact absurd (concerns_of_entry he _) hnot
  · cases h
  · obtain ⟨-, rfl⟩ := Prod.mk.inj h
    have placed : l₁.placement? r.hash = some (e.record, e.link) :=
      ((agree_markAffectedDirty (fun _ _ => rfl) r).entries r.hash).symm.trans
        (placement?_eq_some_iff.2 ⟨e, he, rfl, rfl⟩)
    have added := (placement?_addEntry chain now hhash ha r.hash).trans (if_pos rfl)
    have link := (Prod.mk.inj (Option.some.inj (added.symm.trans placed))).2
    rw [← show (l.entryWith ((Entry.ofRecord r).offered keys (some block))).link = _ from link]
    cases hs : l.entry? r.hash with
    | none => rw [entryWith_of_none hs, Entry.link_offered_some, target]
    | some stored =>
      rw [entryWith_of_some hs]
      show (stored.link.merge (.toBlock block r.hash)).block = _
      rw [MerkleLink.block_merge, target, hblock]
      rfl

/-! ## Links after a run -/

/-- A record was seen with the block in one of the steps. -/
def SeenIn (steps : List (Surroundings × Operation)) (b : Block) : Prop :=
  ∃ step ∈ steps, step.2.block? = some b

/-- After every run from an empty ledger in which blocks with one hash hold the same records: the
position of an entry is one that its record has in some block it was seen with, and the entry names
such a block. There the position is right exactly if this block holds the record. The block that is
named is the one the record was seen with last. -/
theorem located_iff_held (settings : Settings) (store : Store)
    (steps : List (Surroundings × Operation))
    (hsteps : ∀ step ∈ steps, step.2.IsStep fun _ => True)
    (same : ∀ b b', SeenIn steps b → SeenIn steps b' → b.hash = b'.hash →
      b.leafHashes = b'.leafHashes) :
    let l := (empty settings store).after steps
    (∀ hash e, l.entry? hash = some e → e.link.index ≠ none →
      (∃ b, SeenIn steps b ∧ e.link.LocatedIn hash b) ∧
      ∃ b, SeenIn steps b ∧ b.hash = e.link.block ∧
        (MerkleLink.NeverAtZero (SeenIn steps) hash →
          (e.link.LocatedIn hash b ↔ hash ∈ b.leafHashes))) ∧
    ∀ (s : Surroundings) (r : Record) (block : Block) (l' : Ledger) (e : Entry),
      block.hash.isZero = false →
      sync s.keys s.chain.toChainView s.now r (some block) l = (.ok (), l') →
      l'.entry? r.hash = some e → e.link.block = block.hash := by
  intro l
  have made : AllMadeFrom (SeenIn steps) l :=
    allMadeFrom_after same steps hsteps (fun step hs b hb => ⟨step, hs, hb⟩)
      (allMadeFrom_empty settings store)
  refine ⟨fun hash e he hindex => ?_, fun s r block l' e hblock hsync he' =>
    block_of_sync (fun he => (made.entry he).1) hblock hsync he'⟩
  obtain ⟨-, link⟩ := made.entry he
  obtain ⟨b, hb, hname⟩ := link.named.resolve_right fun h => hindex h.2
  exact ⟨link.located hindex, b, hb, hname, fun never =>
    ⟨MerkleLink.LocatedIn.mem, link.right never b hb hname⟩⟩

/-- A transaction that is mined, and is then seen with a block that does not hold it. -/
def strayed (s : Surroundings) : List (Surroundings × Operation) :=
  [(s, .sync (.transaction (rivalSpend 0)) (some tipBlock)),
    (s, .sync (.transaction (rivalSpend 0)) (some goneBlock))]

/-- It has a position then, and the block it names is the one that does not hold it. -/
theorem strayed_computed :
    (Ledger.entry? ((empty Settings.default Store.empty).after
      (strayed Follower.exampleSurroundings)) (rivalSpend 0).hash).any
        (fun e => e.link.block == goneBlock.hash && e.link.index == some 0) = true ∧
    goneBlock.hash ≠ tipBlock.hash ∧ (rivalSpend 0).hash ∉ goneBlock.leafHashes := by
  decide +kernel

/-- So it is not located in the block it names. -/
theorem not_located_strayed :
    let l := (empty Settings.default Store.empty).after (strayed Follower.exampleSurroundings)
    ∃ e, l.entry? (rivalSpend 0).hash = some e ∧ e.link.index = some 0 ∧
      e.link.block = goneBlock.hash ∧ ¬ e.link.LocatedIn (rivalSpend 0).hash goneBlock := by
  intro l
  obtain ⟨entry, other, notHeld⟩ := strayed_computed
  obtain ⟨e, he, link⟩ := (Option.any_eq_true _ _).1 entry
  obtain ⟨hblock, hindex⟩ := Bool.and_eq_true_iff.1 link
  have seen : ∀ b, SeenIn (strayed Follower.exampleSurroundings) b →
      b = tipBlock ∨ b = goneBlock := by
    rintro b ⟨step, hstep, hb⟩
    rcases List.mem_pair.1 hstep with rfl | rfl
    · exact .inl (Option.some.inj hb).symm
    · exact .inr (Option.some.inj hb).symm
  have same : ∀ b b', SeenIn (strayed Follower.exampleSurroundings) b →
      SeenIn (strayed Follower.exampleSurroundings) b' → b.hash = b'.hash →
        b.leafHashes = b'.leafHashes := by
    intro b b' hb hb' h
    rcases seen b hb with rfl | rfl <;> rcases seen b' hb' with rfl | rfl
    · rfl
    · exact absurd h.symm other
    · exact absurd h other
    · rfl
  have never : MerkleLink.NeverAtZero (SeenIn (strayed Follower.exampleSurroundings))
      (rivalSpend 0).hash := by
    intro b hb hzero
    rcases seen b hb with rfl | rfl
    · exact absurd hzero (by decide)
    · exact notHeld
  have hindex : e.link.index = some 0 := eq_of_beq hindex
  have hblock : e.link.block = goneBlock.hash := eq_of_beq hblock
  obtain ⟨located, -⟩ := located_iff_held Settings.default Store.empty
    (strayed Follower.exampleSurroundings) (fun step hstep => by
      rcases List.mem_pair.1 hstep with rfl | rfl <;> exact trivial) same
  obtain ⟨-, b, hb, hname, right⟩ := located _ e he (hindex ▸ nofun)
  rcases seen b hb with rfl | rfl
  · exact absurd (hname.trans hblock).symm other
  · exact ⟨e, he, hindex, hblock, fun h => notHeld ((right never).1 h)⟩

end Ledger
end ShieldedLedger
