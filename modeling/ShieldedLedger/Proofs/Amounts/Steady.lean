import Mathlib.Data.List.Basic
import ShieldedLedger.Proofs.Amounts.Stale

/-!
# Questions do not change answers

A query fills cells of the memos, and what it fills in is what would be computed for the next query
anyway. So as long as keys and chain stay the same, no query changes what another one answers, stale
or not: it leads to a ledger that answers as before (`Ledger.SameAnswers`), and its own answer goes
by nothing else (`Ledger.Steady`). An operation that is put together from queries may therefore be
read as if each of them were put to the ledger at the start.
-/

namespace ShieldedLedger

namespace OwnedAmounts

variable {compute : OwnershipFilter → Except LedgerError Amount} {quantity : String}

/-- What is memoized is answered, and otherwise what is computed. -/
theorem remember_fst (a : OwnedAmounts) (part : OwnershipFilter)
    (outcome : Except LedgerError Amount) :
    (a.remember part outcome).1 = ((a.part part).map Except.ok).getD outcome := by
  unfold remember
  cases a.part part <;> cases outcome <;> rfl

/-- To remember one amount does not change what is remembered of another, or of the same. -/
theorem remember_remember (a : OwnedAmounts) {part part' : OwnershipFilter} (hpart : part ≠ .all)
    (hpart' : part' ≠ .all) :
    ((a.remember part (compute part)).2.remember part' (compute part')).1 =
      (a.remember part' (compute part')).1 := by
  cases hv : a.part part with
  | some v =>
    have same : (a.remember part (compute part)).2 = a := by
      unfold remember
      rw [hv]
    rw [same]
  | none =>
    cases hc : compute part with
    | error e =>
      have same : (a.remember part (.error e)).2 = a := by
        unfold remember
        rw [hv]
      rw [same]
    | ok v =>
      have set : (a.remember part (.ok v)).2 = a.setPart part v := by
        unfold remember
        rw [hv]
      rw [set]
      cases part with
      | all => exact absurd rfl hpart
      | spendable =>
        cases part' with
        | all => exact absurd rfl hpart'
        | spendable => rw [remember_of_part_eq_none hv, hc]; rfl
        | watchOnly => rw [remember_fst, remember_fst]; rfl
      | watchOnly =>
        cases part' with
        | all => exact absurd rfl hpart'
        | spendable => rw [remember_fst, remember_fst]; rfl
        | watchOnly => rw [remember_of_part_eq_none hv, hc]; rfl

/-- A total goes by what is remembered of its parts at the start. -/
theorem foldl_addPart_fst : ∀ (ps : List OwnershipFilter), (∀ part ∈ ps, part ≠ .all) →
    ∀ (total : Except LedgerError Amount) (a : OwnedAmounts),
      (ps.foldl (addPart quantity compute) (total, a)).1 = ps.foldl (fun total part =>
        addOutcome quantity total (a.remember part (compute part)).1) total
  | [], _, _, _ => rfl
  | part :: rest, hparts, total, a => by
    have hpart := hparts part List.mem_cons_self
    have hrest := fun part hp => hparts part (List.mem_cons_of_mem _ hp)
    rw [List.foldl_cons, List.foldl_cons]
    cases total with
    | error e => exact foldl_addPart_fst rest hrest _ a
    | ok total =>
      rw [addPart_ok, foldl_addPart_fst rest hrest]
      exact List.foldl_ext _ _ _ fun total part' hp => by
        rw [remember_remember a hpart (hrest part' hp)]

/-- A total adds up what is remembered for the kinds of ownership, none of which stands in the way
of another. -/
theorem total_fst (a : OwnedAmounts) (filter : OwnershipFilter) :
    (a.total quantity filter compute).1 = (parts filter).foldl (fun total part =>
      addOutcome quantity total (a.remember part (compute part)).1) (.ok 0) :=
  foldl_addPart_fst _ (fun _ => ne_all_of_mem_parts) _ a

/-- Nor does a total change what is remembered. -/
theorem remember_foldl_addPart {part' : OwnershipFilter} (hpart' : part' ≠ .all) :
    ∀ (ps : List OwnershipFilter), (∀ part ∈ ps, part ≠ .all) →
      ∀ (total : Except LedgerError Amount) (a : OwnedAmounts),
        ((ps.foldl (addPart quantity compute) (total, a)).2.remember part' (compute part')).1 =
          (a.remember part' (compute part')).1
  | [], _, _, _ => rfl
  | part :: rest, hparts, total, a => by
    have hpart := hparts part List.mem_cons_self
    have hrest := fun part hp => hparts part (List.mem_cons_of_mem _ hp)
    rw [List.foldl_cons]
    cases total with
    | error e => exact remember_foldl_addPart hpart' rest hrest _ a
    | ok total =>
      rw [addPart_ok, remember_foldl_addPart hpart' rest hrest]
      exact remember_remember a hpart hpart'

end OwnedAmounts

/-- Setting the amounts of a kind sets those of no other kind. -/
theorem AmountMemo.get_set (m : AmountMemo) (kind kind' : AmountKind) (a : OwnedAmounts) :
    (m.set kind a).get kind' = if kind' = kind then a else m.get kind' := by
  cases kind <;> cases kind' <;> rfl

namespace Ledger

variable {keys : KeyView} {chain : ChainView} {l l' l'' : Ledger} {hash : Hash256} {e e' : Entry}

/-! ## Ledgers that differ in what is memoized -/

/-- They hold the same entries but for the memos. -/
theorem entry?_of_markDirty_eq (h : l'.markDirty = l.markDirty) (he : l.entry? hash = some e) :
    ∃ e', l'.entry? hash = some e' ∧ e'.markDirty = e.markDirty := by
  have found : l'.markDirty.entry? hash = some e.markDirty := by
    rw [h, entry?_markDirty, he, Option.map_some]
  rw [entry?_markDirty] at found
  obtain ⟨e', he', heq⟩ := Option.map_eq_some_iff.1 found
  exact ⟨e', he', heq⟩

/-- Ledgers that differ in memos only lack the same entries. -/
theorem entry?_eq_none_of_markDirty_eq (h : l'.markDirty = l.markDirty)
    (he : l.entry? hash = none) : l'.entry? hash = none := by
  cases he' : l'.entry? hash with
  | none => rfl
  | some e' =>
    obtain ⟨e, hsome, -⟩ := entry?_of_markDirty_eq h.symm he'
    exact nomatch he.symm.trans hsome

/-- Entries that differ in their memos only have the same record. -/
theorem record_of_markDirty_eq (heq : e'.markDirty = e.markDirty) : e'.record = e.record :=
  show e'.markDirty.record = e.markDirty.record by rw [heq]

/-- Ledgers that differ in memos only have the same settings. -/
theorem settings_of_markDirty_eq (h : l'.markDirty = l.markDirty) : l'.settings = l.settings :=
  show l'.markDirty.settings = l.markDirty.settings by rw [h]

section
variable (h : l'.markDirty = l.markDirty) (heq : e'.markDirty = e.markDirty)
include h heq

/-- From scratch, ledgers that differ in memos only give the same amounts. -/
theorem freshAmount_of_markDirty_eq (kind : AmountKind) :
    l'.freshAmount keys chain kind e' = l.freshAmount keys chain kind e := by
  funext part
  rw [← freshAmount_markDirty, h, heq, freshAmount_markDirty]

/-- Ledgers that differ in memos only agree about which entries have amounts. -/
theorem hasAmount_of_markDirty_eq (kind : AmountKind) :
    l'.hasAmount chain kind e' = l.hasAmount chain kind e := by
  rw [← hasAmount_markDirty, h, heq, hasAmount_markDirty]

end

/-- The ledgers differ in what is memoized only, and remember the same amounts: what one has
memoized is memoized by the other, or the other would compute it. -/
structure SameAnswers (keys : KeyView) (chain : ChainView) (l l' : Ledger) : Prop where
  markDirty_eq : l'.markDirty = l.markDirty
  remembered : ∀ {hash e e'}, l.entry? hash = some e → l'.entry? hash = some e' →
    ∀ kind part, part ≠ .all →
      ((e'.memo.get kind).remember part (l.freshAmount keys chain kind e part)).1 =
        ((e.memo.get kind).remember part (l.freshAmount keys chain kind e part)).1

namespace SameAnswers

theorem refl (keys : KeyView) (chain : ChainView) (l : Ledger) : SameAnswers keys chain l l := by
  refine ⟨rfl, fun he he' _ _ _ => ?_⟩
  rw [Option.some.inj (he.symm.trans he')]

theorem symm (h : SameAnswers keys chain l l') : SameAnswers keys chain l' l := by
  refine ⟨h.markDirty_eq.symm, fun he' he kind part hpart => ?_⟩
  obtain ⟨_, he₁, heq⟩ := entry?_of_markDirty_eq h.markDirty_eq he
  obtain rfl := Option.some.inj (he'.symm.trans he₁)
  rw [freshAmount_of_markDirty_eq h.markDirty_eq heq]
  exact (h.remembered he he' kind part hpart).symm

theorem trans (h : SameAnswers keys chain l l') (h' : SameAnswers keys chain l' l'') :
    SameAnswers keys chain l l'' := by
  refine ⟨h'.markDirty_eq.trans h.markDirty_eq, fun he he'' kind part hpart => ?_⟩
  obtain ⟨e', he', heq⟩ := entry?_of_markDirty_eq h.markDirty_eq he
  have second := h'.remembered he' he'' kind part hpart
  rw [freshAmount_of_markDirty_eq h.markDirty_eq heq] at second
  exact second.trans (h.remembered he he' kind part hpart)

/-- Asking for an amount changes no answer. -/
theorem amount (kind : AmountKind) (hash : Hash256) (filter : OwnershipFilter) (l : Ledger) :
    SameAnswers keys chain l (Ledger.amount keys chain kind hash filter l).2 := by
  unfold Ledger.amount
  split
  · exact refl keys chain l
  next e he =>
  split
  · exact refl keys chain l
  have filled : SameAnswers keys chain l (l.modifyEntry hash fun x => { x with
      memo := x.memo.set kind ((e.memo.get kind).total kind.quantity filter
        (l.freshAmount keys chain kind e)).2 }) := by
    have same (x : Entry) (memo : AmountMemo) : { x with memo }.markDirty = x.markDirty := rfl
    refine ⟨markDirty_modifyEntry l (fun x => same x _) hash,
      fun {hash'} e₁ e' he₁ he' kind' part hpart => ?_⟩
    rw [entry?_modifyEntry] at he'
    split at he'
    · next hh =>
      subst hh
      obtain rfl := Option.some.inj (he.symm.trans he₁)
      rw [he, Option.map_some] at he'
      obtain rfl := Option.some.inj he'
      dsimp only
      rw [AmountMemo.get_set]
      split
      · next hk =>
        subst hk
        exact OwnedAmounts.remember_foldl_addPart hpart _
          (fun _ => OwnedAmounts.ne_all_of_mem_parts) _ _
      · rfl
    · rw [Option.some.inj (he₁.symm.trans he')]
  split
  · next htotal => rwa [htotal] at filled
  · next htotal => rwa [htotal] at filled

/-- The answer goes by what is remembered. -/
theorem amount_eq (h : SameAnswers keys chain l l') (kind : AmountKind) (hash : Hash256)
    (filter : OwnershipFilter) : (Ledger.amount keys chain kind hash filter l').1 =
      (Ledger.amount keys chain kind hash filter l).1 := by
  cases he : l.entry? hash with
  | none =>
    unfold Ledger.amount
    rw [he, entry?_eq_none_of_markDirty_eq h.markDirty_eq he]
  | some e =>
    obtain ⟨e', he', heq⟩ := entry?_of_markDirty_eq h.markDirty_eq he
    have has : l'.hasAmount chain kind e' = l.hasAmount chain kind e :=
      hasAmount_of_markDirty_eq h.markDirty_eq heq kind
    cases hhas : l.hasAmount chain kind e with
    | false => rw [amount_fst_of_not he hhas, amount_fst_of_not he' (has.trans hhas)]
    | true =>
      rw [amount_fst he hhas, amount_fst he' (has.trans hhas),
        freshAmount_of_markDirty_eq h.markDirty_eq heq, OwnedAmounts.total_fst,
        OwnedAmounts.total_fst]
      congr 1
      exact List.foldl_ext _ _ _ fun total part hp => by
        rw [h.remembered he he' kind part (OwnedAmounts.ne_all_of_mem_parts hp)]

end SameAnswers

/-! ## Operations that go by what is remembered -/

/-- The operation changes no answers, and gives the same answer to ledgers that answer alike. -/
structure Steady {α : Type} (keys : KeyView) (chain : ChainView) (op : LedgerOp α) : Prop where
  same : ∀ l, SameAnswers keys chain l (op l).2
  answer : ∀ {l l'}, SameAnswers keys chain l l' → (op l').1 = (op l).1

namespace Steady

variable {α β : Type}

theorem pure (a : α) : Steady keys chain (Pure.pure a : LedgerOp α) :=
  ⟨.refl keys chain, fun _ => rfl⟩

theorem refuse (error : LedgerError) :
    Steady keys chain (LedgerOp.refuse error : LedgerOp α) :=
  ⟨.refl keys chain, fun _ => rfl⟩

/-- Two steady operations in a row are steady. -/
theorem bind {op : LedgerOp α} {f : α → LedgerOp β} (hop : Steady keys chain op)
    (hf : ∀ a, Steady keys chain (f a)) : Steady keys chain (op >>= f) := by
  constructor
  · intro l
    have first := hop.same l
    show SameAnswers keys chain l (ExceptT.bindCont f (op l).1 (op l).2).2
    cases (op l).1 with
    | ok a => exact first.trans ((hf a).same _)
    | error failure => exact first
  · intro l l' h
    have left := (hop.same l).symm.trans (h.trans (hop.same l'))
    show (ExceptT.bindCont f (op l').1 (op l').2).1 = (ExceptT.bindCont f (op l).1 (op l).2).1
    rw [hop.answer h]
    cases (op l).1 with
    | ok a => exact (hf a).answer left
    | error failure => rfl

/-- An operation that goes by the ledger, but not by its memos. -/
theorem get_bind {f : Ledger → LedgerOp β}
    (hsame : ∀ {l l' : Ledger}, l'.markDirty = l.markDirty → f l' = f l)
    (hf : ∀ l, Steady keys chain (f l)) : Steady keys chain (get >>= f) := by
  constructor
  · exact fun l => (hf l).same l
  · intro l l' h
    show (f l' l').1 = (f l l).1
    rw [hsame h.markDirty_eq]
    exact (hf l).answer h

/-- A loop of steady operations is steady. -/
theorem foldlM {f : β → α → LedgerOp β} (hf : ∀ b a, Steady keys chain (f b a)) :
    ∀ (items : List α) (b : β), Steady keys chain (items.foldlM f b)
  | [], b => pure b
  | a :: rest, b => bind (hf b a) fun b => foldlM hf rest b

/-- What follows a steady operation may be put to the ledger from before it. -/
theorem bind_fst {op : LedgerOp α} {f : α → LedgerOp β} (hop : Steady keys chain op)
    (hf : ∀ a, Steady keys chain (f a)) (l : Ledger) :
    ((op >>= f) l).1 = (op l).1.bind fun a => (f a l).1 := by
  show (ExceptT.bindCont f (op l).1 (op l).2).1 = _
  have first := hop.same l
  cases (op l).1 with
  | ok a => exact (hf a).answer first
  | error failure => rfl

/-- The amount of an entry is steady: what it fills in, it would have computed. -/
theorem amount (kind : AmountKind) (hash : Hash256) (filter : OwnershipFilter) :
    Steady keys chain (Ledger.amount keys chain kind hash filter) :=
  ⟨.amount kind hash filter, fun h => h.amount_eq kind hash filter⟩

/-- Whether a record is from us is steady. -/
theorem isFromMe (hash : Hash256) (filter : OwnershipFilter) :
    Steady keys chain (Ledger.isFromMe keys chain hash filter) :=
  bind (amount _ _ _) fun _ => pure _

/-- Whether an entry is trusted is steady. -/
theorem isTrusted (hash : Hash256) : Steady keys chain (Ledger.isTrusted keys chain hash) := by
  refine get_bind (fun {l l'} h => ?_) fun l => ?_
  · cases he : l.entry? hash with
    | none => rw [entry?_eq_none_of_markDirty_eq h he]
    | some e =>
      obtain ⟨e', he', heq⟩ := entry?_of_markDirty_eq h he
      have depth : l'.depthOf chain e' = l.depthOf chain e := by
        rw [← depthOf_markDirty, h, heq, depthOf_markDirty]
      have ours : l'.spendsOnlyOurs keys e'.record = l.spendsOnlyOurs keys e.record := by
        rw [← spendsOnlyOurs_markDirty, h, record_of_markDirty_eq heq, spendsOnlyOurs_markDirty]
      have settings := settings_of_markDirty_eq h
      rw [he']
      dsimp only
      rw [depth, ours, settings]
  · split
    · exact refuse _
    dsimp only
    split
    · exact pure _
    split
    · exact pure _
    split
    · exact pure _
    refine bind (isFromMe _ _) fun fromMe => ?_
    split <;> exact pure _

end Steady
end Ledger
end ShieldedLedger
