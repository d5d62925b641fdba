import ShieldedLedger.Proofs.Amounts.Fresh
import ShieldedLedger.Proofs.SpendIndex
import ShieldedLedger.Simulation.Chain
import ShieldedLedger.Simulation.Keys

/-!
# How taking in a record ends

A record that is seen is passed over, or refused because a sum cannot be given, or offered to the
ledger with the notes that the keys find in it and the link to its block (`Entry.offered`). An entry
that is offered is added, unless the store refuses it (`addEntry_outcomes`). Whenever the record is
not taken in, the ledger is as it was (`unchanged_of_not_taken`); when it is, one entry has changed
(`Added`).
-/

namespace ShieldedLedger

/-- An entry as it is offered to the ledger: with our notes in its record, if there are any, and
with the link to its block, if there is one. -/
def Entry.offered (e : Entry) (keys : KeyView) (block : Option Block) : Entry :=
  { e with
    notes := if (e.record.findNotes keys).isEmpty then e.notes else e.record.findNotes keys
    link := match block with
      | none => e.link
      | some block => MerkleLink.toBlock block e.hash }

/-- An entry is offered with its own record. -/
@[simp] theorem Entry.record_offered (e : Entry) (keys : KeyView) (block : Option Block) :
    (e.offered keys block).record = e.record := rfl

/-- So it is offered under its own hash. -/
@[simp] theorem Entry.hash_offered (e : Entry) (keys : KeyView) (block : Option Block) :
    (e.offered keys block).hash = e.hash := rfl

/-- A record that is seen is offered under its hash. -/
@[simp] theorem Entry.hash_ofRecord (r : Record) : (Entry.ofRecord r).hash = r.hash := rfl

/-- A record that is seen unconfirmed is offered without a link. -/
theorem Entry.link_offered_none (r : Record) (keys : KeyView) :
    ((Entry.ofRecord r).offered keys none).link = MerkleLink.unlinked := rfl

/-- One that is seen in a block is offered with the link to it. -/
theorem Entry.link_offered_some (r : Record) (keys : KeyView) (block : Block) :
    ((Entry.ofRecord r).offered keys (some block)).link = .toBlock block r.hash := rfl

/-- With a record that is seen, the notes are offered that the keys find in it. -/
theorem Entry.notes_offered_ofRecord (r : Record) (keys : KeyView) (block : Option Block) :
    ((Entry.ofRecord r).offered keys block).notes = r.findNotes keys := by
  show (if (r.findNotes keys).isEmpty then SortedMap.empty else r.findNotes keys) = _
  split
  · next h => exact (SortedMap.eq_empty_of_isEmpty h).symm
  · rfl

namespace Ledger

variable {keys : KeyView} {chain : ChainView} {now : Int64} {l l' : Ledger}

/-- A hash is known if there is an entry. -/
theorem contains_entries_iff {hash : Hash256} :
    l.entries.contains hash = true ↔ ∃ e, l.entry? hash = some e := Option.isSome_iff_exists

/-- A record that is known concerns the wallet. -/
theorem concerns_of_entry {r : Record} {e : Entry} (he : l.entry? r.hash = some e)
    (notes : NoteMap) : concerns keys l r notes = .ok true := by
  unfold concerns
  rw [contains_entries_iff.2 ⟨e, he⟩]
  rfl

/-- A question that can be answered is answered, and nothing changes. -/
theorem ask_of_ok {α : Type} {f : Ledger → Except LedgerError α} {a : α} (h : f l = .ok a) :
    LedgerOp.ask f l = (.ok a, l) := by
  unfold LedgerOp.ask
  rw [h]

/-- One that cannot is refused, and nothing changes. -/
theorem ask_of_error {α : Type} {f : Ledger → Except LedgerError α} {e : LedgerError}
    (h : f l = .error e) : LedgerOp.ask f l = (.error (.error e), l) := by
  unfold LedgerOp.ask
  rw [h]

/-! ## Adding an entry -/

/-- The entry that the ledger holds for the record of `incoming` once that is added, but for
bookkeeping. -/
def entryWith (l : Ledger) (incoming : Entry) : Entry :=
  match l.entry? incoming.hash with
  | none => incoming
  | some stored => stored.merge incoming

/-- A new entry is taken in as it is offered. -/
theorem entryWith_of_none {incoming : Entry} (h : l.entry? incoming.hash = none) :
    l.entryWith incoming = incoming := by
  unfold entryWith
  rw [h]

/-- An entry that is held already is merged with what is offered. -/
theorem entryWith_of_some {incoming stored : Entry} (h : l.entry? incoming.hash = some stored) :
    l.entryWith incoming = stored.merge incoming := by
  unfold entryWith
  rw [h]

/-- But for bookkeeping, memoized amounts and the spenders, the ledger `l'` is `l` with an entry
added, and the notes of that are not indexed yet. -/
structure Added (incoming : Entry) (l l' : Ledger) : Prop where
  entries : ∀ {β : Type} {f : Entry → β}, IgnoresMemo f → IgnoresInfo f → ∀ hash,
    (l'.entry? hash).map f = if hash = incoming.hash then some (f (l.entryWith incoming))
      else (l.entry? hash).map f
  noteIndex : l'.noteIndex = l.noteIndex
  refused : l'.store.refused = l.store.refused
  encodable : l.entry? incoming.hash = none → incoming.record.encode? ≠ none

/-- Adding an entry that the store does not refuse puts it into the ledger and then indexes it. -/
theorem added_of_addEntry {incoming : Entry}
    (hhash : ∀ {hash e}, l.entry? hash = some e → e.hash = hash)
    (h : addEntry chain now incoming l = (.ok (), l')) :
    ∃ l₀, Added incoming l l₀ ∧ l' = l₀.indexEntry incoming.hash := by
  rcases addEntry_outcomes chain now incoming l with
    ⟨e, ha, -⟩ | ⟨hnew, encodable, store, same, ha⟩ | ⟨stored, store, hs, same, ha⟩ <;>
    rw [h] at ha
  · cases ha
  · obtain ⟨entries, spenders, only⟩ := onlyEntries_registerSpends
      (l.withNew (incoming.received chain now l.nextOrder).markDirty store) incoming.hash
    refine ⟨_, ⟨fun {β f} hm hi hash => ?_, by rw [only]; rfl, by rw [only]; exact same,
      fun _ => encodable⟩, congrArg Prod.snd ha⟩
    have read : f (incoming.received chain now l.nextOrder).markDirty = f incoming :=
      (hm _ _).trans (hi _ _)
    rw [entries_registerSpends hm (fun e i => hi e _), entry?_withNew, entryWith_of_none hnew]
    show Option.map f (if hash = incoming.hash then _ else _) = _
    split
    · rw [Option.map_some, read]
    · rfl
  · refine ⟨l.withMerged (stored.merge incoming).markDirty store,
      ⟨fun {β f} hm hi hash => ?_, rfl, same, fun hnew => nomatch hnew.symm.trans hs⟩,
      congrArg Prod.snd ha⟩
    have key : stored.hash = incoming.hash := hhash hs
    rw [entry?_withMerged, show (stored.merge incoming).markDirty.hash = incoming.hash from key,
      entryWith_of_some hs]
    split
    · exact congrArg some (hm _ _)
    · rfl

/-! ## Seeing a record -/

/-- A record is left alone because it is known and not to be updated, or because it is of no
concern; or it cannot be told whether it is; or the entry is offered to the ledger. -/
theorem addIfRelevant_outcomes (keys : KeyView) (chain : ChainView) (now : Int64) (incoming : Entry)
    (block : Option Block) (update : Bool) (l : Ledger) :
    (addIfRelevant keys chain now incoming block update l = (.ok false, l) ∧
      (l.entries.contains incoming.hash = true ∧ update = false ∨
        concerns keys l incoming.record (incoming.record.findNotes keys) = .ok false)) ∨
    (∃ e, addIfRelevant keys chain now incoming block update l = (.error (.error e), l) ∧
      concerns keys l incoming.record (incoming.record.findNotes keys) = .error e) ∨
    (addIfRelevant keys chain now incoming block update l =
      ((addEntry chain now (incoming.offered keys block) l).1.map fun _ => true,
        (addEntry chain now (incoming.offered keys block) l).2)) := by
  have got : (get : LedgerOp Ledger) l = (.ok l, l) := rfl
  unfold addIfRelevant
  rw [bind_of_ok got]
  cases hknown : l.entries.contains incoming.hash && !update with
  | true =>
    obtain ⟨held, known⟩ := Bool.and_eq_true_iff.1 hknown
    exact .inl ⟨rfl, .inl ⟨held, by simpa using known⟩⟩
  | false =>
    rw [if_neg Bool.false_ne_true]
    cases hc : concerns keys l incoming.record (incoming.record.findNotes keys) with
    | error e =>
      rw [bind_of_error (ask_of_error hc)]
      exact .inr (.inl ⟨e, rfl, rfl⟩)
    | ok relevant =>
      rw [bind_of_ok (ask_of_ok hc)]
      cases relevant with
      | false => exact .inl ⟨rfl, .inr rfl⟩
      | true =>
        have added : ∀ e, (addEntry chain now e >>= fun _ => (pure true : LedgerOp Bool)) l =
            ((addEntry chain now e l).1.map fun _ => true, (addEntry chain now e l).2) := by
          intro e
          cases ha : addEntry chain now e l with
          | mk outcome l' =>
            cases outcome with
            | ok _ => exact bind_of_ok ha
            | error e => exact bind_of_error ha
        refine .inr (.inr ((added _).trans ?_))
        unfold Entry.offered
        cases (incoming.record.findNotes keys).isEmpty <;> cases block <;> rfl

/-- What becomes of a record that is seen: it is not offered and nothing changes; or the store
refuses the entry, and nothing changes either; or the entry is added, and the memoized amounts of
what it spends from are forgotten. -/
theorem sync_outcomes (keys : KeyView) (chain : ChainView) (now : Int64) (r : Record)
    (block : Option Block) (l : Ledger) :
    (∃ outcome, sync keys chain now r block l = (outcome, l) ∧
      concerns keys l r (r.findNotes keys) ≠ .ok true) ∨
    (∃ e, sync keys chain now r block l = (.error (.error (.store e)), l) ∧
      (l.store.refused = some .entry ∨
        ((l.entry? r.hash).getD (Entry.ofRecord r)).record.encode? = none)) ∨
    ∃ l', addEntry chain now ((Entry.ofRecord r).offered keys block) l = (.ok (), l') ∧
      sync keys chain now r block l = (.ok (), l'.markAffectedDirty r) := by
  unfold sync
  rcases addIfRelevant_outcomes keys chain now (Entry.ofRecord r) block true l with
    ⟨h, hnot⟩ | ⟨e, h, hnot⟩ | h
  · rw [bind_of_ok h]
    have hnot : concerns keys l r (r.findNotes keys) = .ok false :=
      hnot.resolve_left fun known => nomatch known.2
    exact .inl ⟨.ok (), rfl, by rw [hnot]; exact nofun⟩
  · have hnot : concerns keys l r (r.findNotes keys) = .error e := hnot
    rw [bind_of_error h]
    exact .inl ⟨_, rfl, by rw [hnot]; exact nofun⟩
  · rcases addEntry_outcomes chain now ((Entry.ofRecord r).offered keys block) l with
      ⟨e, ha, reason⟩ | ⟨-, -, store, -, ha⟩ | ⟨stored, store, -, -, ha⟩
    · rw [ha] at h
      rw [bind_of_error h]
      refine .inr (.inl ⟨e, rfl, reason.imp_right fun unencodable => ?_⟩)
      cases he : l.entry? r.hash with
      | none =>
        rw [show l.entry? ((Entry.ofRecord r).offered keys block).hash = none from he]
          at unencodable
        exact unencodable
      | some stored =>
        rw [show l.entry? ((Entry.ofRecord r).offered keys block).hash = some stored from he]
          at unencodable
        exact unencodable
    all_goals
      refine .inr (.inr ⟨_, ha, ?_⟩)
      rw [ha] at h
      rw [bind_of_ok h]
      rfl

/-! ## When nothing changes -/

/-- What keeps a record from being taken in: a sum leaves the money range, or the store refuses. -/
def IsRefusal : Failure → Prop
  | .error (.value (.outOfRange _)) | .error (.store _) => True
  | _ => False

/-- It can only not be told whether a record concerns the wallet if the value of what it spends of
ours leaves the money range. -/
theorem isRefusal_of_concerns {r : Record} {notes : NoteMap} {e : LedgerError}
    (h : concerns keys l r notes = .error e) : IsRefusal (.error e) := by
  unfold concerns at h
  split at h
  · cases h
  cases hd : l.recordDebit keys r .all with
  | ok debit =>
    rw [hd] at h
    cases h
  | error e' =>
    rw [hd] at h
    obtain rfl := Except.error.inj h
    rcases sumAmounts_error hd with ⟨i, -, hi⟩ | rfl
    · unfold inputDebit at hi
      split at hi
      · cases hi
      unfold outputCredit at hi
      split at hi
      · obtain rfl := Except.error.inj hi
        trivial
      · cases hi
    · trivial

/-- A record that is offered changes nothing unless it is taken in. -/
theorem addIfRelevant_not_taken {incoming : Entry} {block : Option Block} {update : Bool}
    {outcome : Except Failure Bool}
    (h : addIfRelevant keys chain now incoming block update l = (outcome, l'))
    (hnot : outcome ≠ .ok true) :
    l' = l ∧ ∀ failure, outcome = .error failure → IsRefusal failure := by
  rcases addIfRelevant_outcomes keys chain now incoming block update l with
    ⟨same, -⟩ | ⟨e, same, unknown⟩ | same <;> rw [h] at same
  · obtain ⟨rfl, rfl⟩ := Prod.mk.inj same
    exact ⟨rfl, nofun⟩
  · obtain ⟨rfl, rfl⟩ := Prod.mk.inj same
    refine ⟨rfl, fun failure hf => ?_⟩
    rw [← Except.error.inj hf]
    exact isRefusal_of_concerns unknown
  · rcases addEntry_outcomes chain now (incoming.offered keys block) l with
      ⟨e, ha, -⟩ | ⟨-, -, store, -, ha⟩ | ⟨stored, store, -, -, ha⟩ <;> rw [ha] at same <;>
      obtain ⟨rfl, rfl⟩ := Prod.mk.inj same
    · refine ⟨rfl, fun failure hf => ?_⟩
      rw [← Except.error.inj hf]
      trivial
    · exact absurd rfl hnot
    · exact absurd rfl hnot

/-- Taking in a record, or offering one, that fails changes nothing: neither the ledger nor its
store. It fails only because a sum leaves the money range or because the store refuses. A record
that is offered and is left alone changes nothing either, and taking it in does not fail then. -/
theorem unchanged_of_not_taken (keys : KeyView) (chain : ChainView) (now : Int64) (l : Ledger) :
    (∀ r block failure, (sync keys chain now r block l).1 = .error failure →
      (sync keys chain now r block l).2 = l ∧ IsRefusal failure) ∧
    (∀ incoming block update failure,
      (addIfRelevant keys chain now incoming block update l).1 = .error failure →
        (addIfRelevant keys chain now incoming block update l).2 = l ∧ IsRefusal failure) ∧
    (∀ incoming block update, (addIfRelevant keys chain now incoming block update l).1 = .ok false →
      (addIfRelevant keys chain now incoming block update l).2 = l) ∧
    ∀ r block, (addIfRelevant keys chain now (Entry.ofRecord r) block true l).1 = .ok false →
      sync keys chain now r block l = (.ok (), l) := by
  have offered : ∀ {incoming block update outcome},
      (addIfRelevant keys chain now incoming block update l).1 = outcome → outcome ≠ .ok true →
        addIfRelevant keys chain now incoming block update l = (outcome, l) ∧
          ∀ failure, outcome = .error failure → IsRefusal failure := fun h hnot => by
    obtain ⟨same, reason⟩ := addIfRelevant_not_taken (eq_of_parts h rfl) hnot
    exact ⟨eq_of_parts h same, reason⟩
  refine ⟨fun r block failure h => ?_, fun incoming block update failure h => ?_,
    fun incoming block update h => ?_, fun r block h => ?_⟩
  · cases ha : addIfRelevant keys chain now (Entry.ofRecord r) block true l with
    | mk outcome l' =>
    cases outcome with
    | ok taken =>
      -- what follows does not fail
      have done : (sync keys chain now r block l).1 = .ok () := by
        unfold sync
        rw [bind_of_ok ha]
        cases taken <;> rfl
      exact nomatch h.symm.trans done
    | error failure' =>
      obtain ⟨rfl, reason⟩ := addIfRelevant_not_taken ha nofun
      have ended : sync keys chain now r block l' = (.error failure', l') := by
        unfold sync
        exact bind_of_error ha
      rw [ended] at h ⊢
      exact ⟨rfl, reason failure (congrArg _ (Except.error.inj h))⟩
  · obtain ⟨same, reason⟩ := offered h nofun
    exact ⟨congrArg Prod.snd same, reason failure rfl⟩
  · exact congrArg Prod.snd (offered h nofun).1
  · obtain ⟨same, -⟩ := offered h nofun
    unfold sync
    exact bind_of_ok same

/-- A payment to us. -/
def payment : Transaction := (Simulation.coinbasePaying Simulation.ourTag 1000 1).freeze

/-- A ledger that has seen it unconfirmed, and whose store has begun to refuse entries. -/
def refusing : Ledger :=
  let l := (sync Simulation.Keys.fresh.view Simulation.Chain.empty.source.toChainView 0
    (.transaction payment) none (empty Settings.default Store.empty)).2
  { l with store := { l.store with refused := some .entry } }

/-- The payment is mined then, which is not taken in. -/
theorem unchanged_of_not_taken_refusing :
    let block : Block := ⟨Bytes.filled 32 0xb0, 0, [payment], []⟩
    let seen := sync Simulation.Keys.fresh.view Simulation.Chain.empty.source.toChainView 0
      (.transaction payment) (some block) refusing
    (refusing.entry? payment.hash).isSome ∧
      seen.1 = .error (.error (.store (.writeFailed .entry))) ∧ seen.2 = refusing := by
  intro block seen
  have computed : (refusing.entry? payment.hash).isSome ∧ (match seen.1 with
      | .error failure => decide (failure = .error (.store (.writeFailed .entry)))
      | .ok () => false) = true := by decide +kernel
  obtain ⟨held, failed⟩ := computed
  have outcome : seen.1 = .error (.error (.store (.writeFailed .entry))) := by
    cases h : seen.1 with
    | ok => rw [h] at failed; cases failed
    | error failure => rw [h] at failed; rw [of_decide_eq_true failed]
  obtain ⟨unchanged, -⟩ := unchanged_of_not_taken Simulation.Keys.fresh.view
    Simulation.Chain.empty.source.toChainView 0 refusing
  exact ⟨held, outcome, (unchanged _ _ _ outcome).1⟩

end Ledger
end ShieldedLedger
