import ShieldedLedger.Wallet.Spending

/-!
# Rebroadcast

Unconfirmed entries are offered to the network again from time to time, oldest first
(`Ledger.resendable`). When that happens is planned ahead with a random delay, and nothing is
offered unless a block has arrived since the last time (`Ledger.planResend`).
-/

namespace ShieldedLedger
namespace Ledger

variable (l : Ledger) (chain : ChainView)

/-- The unconfirmed entries received at or before `time`, oldest first. Coinbases are never
offered. -/
def resendable (time : Int64) : List Entry :=
  (l.entries.values.filter fun e =>
    !e.record.isCoinbase && e.info.timeReceived.toUInt64.toInt64 ≤ time &&
      l.depthOf chain e == 0).mergeSort fun a b =>
        a.info.timeReceived < b.info.timeReceived ||
          (a.info.timeReceived == b.info.timeReceived && a.info.order ≤ b.info.order)

/-- Offers the entries received at or before `time` to `relay`, and answers the hashes of those
it accepts. -/
def resendBefore (time : Int64) (relay : Entry → Bool) : List Hash256 :=
  ((l.resendable chain time).filter relay).map (·.hash)

/-- Called from time to time: if a rebroadcast is due `now`, plans the next one after `delay`.
Unless it is the first one, or no block has arrived since the last, it takes place, with what was
received up to the time that is answered, a while before the best block. -/
def planResend (now bestBlockTime delay : Int64) : Option Int64 × Ledger :=
  if now < l.nextResend then (none, l)
  else
    let planned := { l with nextResend := now + delay }
    if l.nextResend == 0 || bestBlockTime < l.lastResend then (none, planned)
    else
      (some (bestBlockTime - l.settings.resendInterval.toInt64), { planned with lastResend := now })

/-- Offers what is due to `relay`, and answers the hashes of the entries it accepts. -/
def resend (now bestBlockTime delay : Int64) (relay : Entry → Bool) : List Hash256 × Ledger :=
  match l.planResend now bestBlockTime delay with
  | (none, l) => ([], l)
  | (some time, l) => (l.resendBefore chain time relay, l)

end Ledger
end ShieldedLedger
