import ShieldedLedger.Proofs.Keeps
import ShieldedLedger.Wallet.Amounts

/-!
# Amount queries

The amounts the ledger answers: the five of an entry, and the balances. All go by the memo, so a
query changes the ledger it is put to. Two of them change it themselves, `Ledger.amount` and
`Ledger.change`; the others are put together from these, so they keep what these keep
(`Ledger.keeps_query`).
-/

namespace ShieldedLedger

/-- What can be asked about amounts. The six balances are the last three, of spendable outputs and
of watched ones. -/
inductive AmountQuery
  /-- An amount of an entry. -/
  | entry (kind : AmountKind) (hash : Hash256) (filter : OwnershipFilter)
  /-- What an entry pays to our change addresses. -/
  | change (hash : Hash256)
  /-- What is available of trusted entries. -/
  | trusted (filter : OwnershipFilter)
  /-- What is available of unconfirmed entries that are not trusted. -/
  | untrusted (filter : OwnershipFilter)
  /-- The value of coinbases waiting to mature. -/
  | immature (filter : OwnershipFilter)
deriving DecidableEq

/-- Puts a query to the ledger. -/
def AmountQuery.ask (keys : KeyView) (chain : ChainView) : AmountQuery → LedgerOp Amount
  | entry kind hash filter => Ledger.amount keys chain kind hash filter
  | change hash => Ledger.change keys hash
  | trusted filter => Ledger.trustedBalance keys chain filter
  | untrusted filter => Ledger.untrustedBalance keys chain filter
  | immature filter => Ledger.immatureBalance keys chain filter

namespace Ledger

variable {I : Ledger → Prop} {keys : KeyView} {chain : ChainView}

/-- A property that every entry's query keeps is kept by the sum over the entries. -/
theorem keeps_sumEntries {f : Hash256 → LedgerOp Amount} (hf : ∀ hash, Keeps I (f hash)) :
    Keeps I (sumEntries f) := by
  refine Keeps.bind Keeps.get fun l => ?_
  refine Keeps.foldlM (fun total hash => Keeps.bind (hf hash) fun value => ?_) _ _
  split
  · exact Keeps.pure _
  · exact keeps_refuse _

/-- Whether an entry is trusted may depend on what it spends of ours. -/
theorem keeps_isTrusted (h : ∀ kind hash filter, Keeps I (amount keys chain kind hash filter))
    (hash : Hash256) : Keeps I (isTrusted keys chain hash) := by
  unfold isTrusted
  refine Keeps.bind Keeps.get fun l => ?_
  split
  · exact keeps_refuse _
  dsimp only
  split
  · exact Keeps.pure _
  split
  · exact Keeps.pure _
  split
  · exact Keeps.pure _
  refine Keeps.bind (Keeps.bind (h _ _ _) fun _ => Keeps.pure _) fun fromMe => ?_
  split <;> exact Keeps.pure _

/-- A query keeps what asking for the amounts of single entries keeps. -/
theorem keeps_query (h : ∀ kind hash filter, Keeps I (amount keys chain kind hash filter))
    (hc : ∀ hash, Keeps I (change keys hash)) (q : AmountQuery) : Keeps I (q.ask keys chain) := by
  cases q with
  | entry kind hash filter => exact h kind hash filter
  | change hash => exact hc hash
  | trusted filter =>
    refine keeps_sumEntries fun hash => Keeps.bind (keeps_isTrusted h hash) fun trusted => ?_
    split
    · exact h _ _ _
    · exact Keeps.pure _
  | untrusted filter =>
    refine keeps_sumEntries fun hash => Keeps.bind (keeps_isTrusted h hash) fun trusted => ?_
    refine Keeps.bind Keeps.get fun l => ?_
    split
    · exact h _ _ _
    · exact Keeps.pure _
  | immature filter => exact keeps_sumEntries fun hash => h _ _ _

end Ledger
end ShieldedLedger
