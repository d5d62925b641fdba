import ShieldedLedger.Proofs.Agree
import ShieldedLedger.Proofs.Amounts.Query

/-!
# Runs of a ledger

Everything a caller may do with a ledger, one `Operation` after the other (`Ledger.after`). The
keys, the chain and the clock may be others at each step, operations may fail, and the store may be
replaced by any store between two steps, so a run covers every order of events that a ledger can be
put through.

A property that depends only on what most operations leave alone (`Ledger.Agree`) is kept by every
operation once the three keep it that insert an entry, register it and remove it
(`Ledger.keeps_of_agree`), and so it holds after every run (`Ledger.after_keeps`). What takes in no
record and removes none is quiet (`Operation.IsQuiet`).
-/

namespace ShieldedLedger

/-- What an operation is called with besides its arguments: keys, active chain and clock. -/
structure Surroundings where
  keys : KeyView
  chain : ChainSource
  now : Int64

/-- What can be done with a ledger. -/
inductive Operation
  /-- A record is seen, in a block or unconfirmed. -/
  | sync (r : Record) (block : Option Block)
  /-- A record is offered, with what is known about it. -/
  | addIfRelevant (incoming : Entry) (block : Option Block) (update : Bool)
  /-- An entry is added, whether it concerns the wallet or not. -/
  | addEntry (incoming : Entry)
  /-- What an entry claims is registered once more. -/
  | registerSpends (hash : Hash256)
  /-- The spending keys have been unlocked. -/
  | deriveNullifiers
  /-- A block is connected or disconnected. -/
  | chainTip (index : BlockIndex) (block : Block) (tree : NoteTree) (added : Bool)
  /-- The chain is scanned. -/
  | rescan (request : ScanRequest)
  /-- The ledger is stored. -/
  | setBestChain (locator : BlockLocator)
  /-- The witnesses are forgotten. -/
  | clearWitnesses
  /-- An output is kept out of coin selection. -/
  | lockCoin (outpoint : OutPoint)
  /-- An output is made selectable again. -/
  | unlockCoin (outpoint : OutPoint)
  /-- All outputs are made selectable again. -/
  | unlockAllCoins
  /-- An entry is removed. -/
  | erase (hash : Hash256)
  /-- The memoized amounts are forgotten. -/
  | markDirty
  /-- The memoized amounts of what a record spends from are forgotten. -/
  | markAffectedDirty (r : Record)
  /-- An amount is asked for. -/
  | ask (query : AmountQuery)
  /-- The next rebroadcast is planned. -/
  | planResend (bestBlockTime delay : Int64)
  /-- The store changes by itself, or begins to refuse writes. -/
  | setStore (store : Store)

/-- The ledger that an operation leaves behind. -/
def Operation.apply (s : Surroundings) : Operation → Ledger → Ledger
  | sync r block, l => (Ledger.sync s.keys s.chain.toChainView s.now r block l).2
  | addIfRelevant incoming block update, l =>
    (Ledger.addIfRelevant s.keys s.chain.toChainView s.now incoming block update l).2
  | addEntry incoming, l => (Ledger.addEntry s.chain.toChainView s.now incoming l).2
  | registerSpends hash, l => l.registerSpends hash
  | deriveNullifiers, l => l.deriveNullifiers s.keys
  | chainTip index block tree added, l =>
    (Ledger.tipOn tree (Ledger.chainTip index block added) l).2
  | rescan request, l =>
    (Ledger.rescan s.keys s.chain.toChainView s.now s.chain request l).2
  | setBestChain locator, l => (Ledger.setBestChain locator l).2
  | clearWitnesses, l => l.clearWitnesses
  | lockCoin outpoint, l => l.lockCoin outpoint
  | unlockCoin outpoint, l => l.unlockCoin outpoint
  | unlockAllCoins, l => l.unlockAllCoins
  | erase hash, l => (l.erase hash).2
  | markDirty, l => l.markDirty
  | markAffectedDirty r, l => l.markAffectedDirty r
  | ask query, l => (query.ask s.keys s.chain.toChainView l).2
  | planResend bestBlockTime delay, l => (l.planResend s.now bestBlockTime delay).2
  | setStore store, l => { l with store }

/-- The operation takes in no record, removes no entry and derives no nullifier. -/
def Operation.IsQuiet : Operation → Prop
  | .sync .. | .addIfRelevant .. | .addEntry _ | .rescan _ | .erase _ | .deriveNullifiers => False
  | .registerSpends _ | .chainTip .. | .setBestChain _ | .clearWitnesses | .lockCoin _
  | .unlockCoin _ | .unlockAllCoins | .markDirty | .markAffectedDirty _ | .ask _ | .planResend ..
  | .setStore _ => True

namespace Ledger

/-- The ledger after a run. -/
def after (l : Ledger) (steps : List (Surroundings × Operation)) : Ledger :=
  steps.foldl (fun l step => step.2.apply step.1 l) l

/-- What every operation keeps holds after every run. -/
theorem after_keeps {I : Ledger → Prop} (h : ∀ s op l, I l → I (Operation.apply s op l)) :
    ∀ (steps : List (Surroundings × Operation)) {l : Ledger}, I l → I (l.after steps)
  | [], _, hl => hl
  | step :: rest, _, hl => after_keeps h rest (h step.1 step.2 _ hl)

section
variable {β : Type} {f : Entry → β}

/-- A query changes nothing about the entries but their memoized amounts. -/
theorem keeps_agree_query (hf : IgnoresMemo f) (l : Ledger) (keys : KeyView) (chain : ChainView)
    (q : AmountQuery) : Keeps (Agree f l) (q.ask keys chain) := by
  refine keeps_query (fun kind hash filter l' hl => ?_) (fun hash l' hl => ?_) q
  · unfold amount
    split
    · exact hl
    split
    · exact hl
    split <;> exact hl.trans (agree_modifyEntry fun e => hf e _)
  · unfold change
    split
    · exact hl
    split
    · exact hl
    split
    · exact hl
    · exact hl.trans (agree_modifyEntry fun e => hf e _)

variable {I : Ledger → Prop} (hn : IgnoresNotes f) (hm : IgnoresMemo f)
  (agree : ∀ l l', Agree f l l' → I l → I l')
  (add : ∀ chain now incoming, Keeps I (addEntry chain now incoming))
  (register : ∀ hash l, I l → I (l.registerSpends hash))
  (remove : ∀ hash l, I l → I (l.erase hash).2)

include hn agree in
/-- A chain update keeps what can be told from what it leaves alone of the entries. -/
theorem keeps_chainTip_of_agree (index : BlockIndex) (block : Block) (added : Bool) :
    Keeps (fun t => I t.ledger) (chainTip index block added) := fun t ht =>
  agree _ _ (keeps_agree_chainTip hn.ignoresNoteData t.ledger index block added t (.refl f _)) ht

include hn hm agree register in
/-- A property of what `f` reads, of the spenders and of the next place in the order is kept by what
takes in no record and removes none, if by registering an entry. -/
theorem keeps_of_agree_quiet (s : Surroundings) {op : Operation} (hop : op.IsQuiet) (l : Ledger)
    (hl : I l) : I (op.apply s l) := by
  cases op with
  | registerSpends hash => exact register hash l hl
  | chainTip index block tree added =>
    exact keeps_tipOn (keeps_chainTip_of_agree hn agree _ _ _) l hl
  | setBestChain locator => exact agree _ _ (agree_setBestChain locator) hl
  | clearWitnesses => exact agree _ _ (agree_clearWitnesses hn.ignoresNoteData) hl
  | lockCoin outpoint => exact agree l _ ⟨fun _ => rfl, rfl, rfl, rfl⟩ hl
  | unlockCoin outpoint => exact agree l _ ⟨fun _ => rfl, rfl, rfl, rfl⟩ hl
  | unlockAllCoins => exact agree l _ ⟨fun _ => rfl, rfl, rfl, rfl⟩ hl
  | markDirty => exact agree _ _ (agree_markDirty hm) hl
  | markAffectedDirty r => exact agree _ _ (agree_markAffectedDirty hm r) hl
  | ask query =>
    exact agree _ _ (keeps_agree_query hm l s.keys s.chain.toChainView query l (.refl f l)) hl
  | planResend bestBlockTime delay => exact agree _ _ (agree_planResend _ _ _) hl
  | setStore store => exact agree l _ ⟨fun _ => rfl, rfl, rfl, rfl⟩ hl
  | sync | addIfRelevant | addEntry | rescan | erase | deriveNullifiers => exact absurd hop id

include hn hm agree add register remove

/-- It is kept by every operation, if also by inserting an entry and removing one. -/
theorem keeps_of_agree (s : Surroundings) (op : Operation) (l : Ledger) (hl : I l) :
    I (op.apply s l) := by
  cases op with
  | sync r block =>
    exact keeps_sync (fun _ _ _ => add _ _ _)
      (fun l hl => agree _ _ (agree_markAffectedDirty hm r) hl) l hl
  | addIfRelevant incoming block update => exact keeps_addIfRelevant (fun _ _ _ => add _ _ _) l hl
  | addEntry incoming => exact add _ _ _ l hl
  | deriveNullifiers => exact agree _ _ (agree_deriveNullifiers hn.ignoresNoteData _) hl
  | rescan request =>
    exact keeps_rescan (add _ _) (fun _ _ => keeps_chainTip_of_agree hn agree _ _ true) l hl
  | erase hash => exact remove hash l hl
  | _ =>
    refine keeps_of_agree_quiet hn hm agree register s ?_ l hl
    trivial

end
end Ledger
end ShieldedLedger
