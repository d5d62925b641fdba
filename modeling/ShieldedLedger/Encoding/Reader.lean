import ShieldedLedger.Bytes

/-!
# Reading encoded values

A `Reader α` takes a value off the front of a byte string and leaves the rest, or says why it
cannot (`DecodeError`). Reading is strict: of the several ways to spell a count or a flag only the
canonical one is accepted.
-/

namespace ShieldedLedger

/-- Why a byte string does not start with a value of the wanted kind. -/
inductive DecodeError
  /-- The bytes end before the value does. -/
  | endOfInput
  /-- A count is written in a longer form than it needs. -/
  | looseCount
  /-- A count exceeds the largest accepted one. -/
  | countTooLarge
  /-- An optional value is flagged by something other than zero or one. -/
  | badFlag
  /-- A tree lists more parents than its depth allows. -/
  | tooManyParents
deriving DecidableEq

/-- What is wrong, in words. -/
def DecodeError.message : DecodeError → String
  | .endOfInput => "failed to fill whole buffer"
  | .looseCount => "non-canonical CompactSize"
  | .countTooLarge => "CompactSize too large"
  | .badFlag => "non-canonical Option<T>"
  | .tooManyParents => "parents vector exceeds the tree depth"

/-- Takes a value off the front of a byte string. -/
abbrev Reader (α : Type) := List UInt8 → Except DecodeError (α × List UInt8)

namespace Reader

variable {α β : Type}

/-- Reads nothing. -/
def pure (a : α) : Reader α := fun bytes => .ok (a, bytes)

/-- Reads one value, then another that may depend on it. -/
def bind (r : Reader α) (f : α → Reader β) : Reader β := fun bytes =>
  match r bytes with
  | .error e => .error e
  | .ok (a, rest) => f a rest

instance : Monad Reader where
  pure := pure
  bind := bind

/-- Gives up. -/
def fail (e : DecodeError) : Reader α := fun _ => .error e

/-- Reads one byte. -/
def byte : Reader UInt8
  | [] => .error .endOfInput
  | b :: rest => .ok (b, rest)

/-- Reads exactly `n` bytes. -/
def take (n : Nat) : Reader (Bytes n) := fun bytes =>
  if h : (bytes.take n).length = n then .ok (⟨bytes.take n, h⟩, bytes.drop n)
  else .error .endOfInput

/-- Reads `count` values one after the other. -/
def replicate (r : Reader α) : (count : Nat) → Reader (List α)
  | 0 => Reader.pure []
  | count + 1 => Reader.bind r fun a => Reader.bind (replicate r count) fun as =>
      Reader.pure (a :: as)

/-- Reads a flag byte and, if it is one, a value. -/
def optional (r : Reader α) : Reader (Option α) :=
  Reader.bind byte fun flag =>
    if flag = 0 then Reader.pure none
    else if flag = 1 then Reader.bind r fun a => Reader.pure (some a)
    else fail .badFlag

end Reader
end ShieldedLedger
