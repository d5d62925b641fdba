import ShieldedLedger.CommitmentTree.Encoding
import ShieldedLedger.Record.Transaction
import ShieldedLedger.SortedMap

/-!
# Notes

A note is an output of a joinsplit; `NoteLocation` says which. The wallet keeps of each of its notes
the receiving address, the nullifier if it is known, and a short history of witnesses, newest
first, with the height the newest is valid for (`NoteData`).
-/

namespace ShieldedLedger

/-- Where a note is: an output of a joinsplit of the transaction with a hash. -/
structure NoteLocation where
  hash : Hash256
  joinSplit : UInt64
  output : UInt8
deriving DecidableEq

namespace NoteLocation

/-- The position of the note within its transaction. -/
def position (l : NoteLocation) : UInt64 × UInt8 := (l.joinSplit, l.output)

/-- Locations are compared by hash, then by joinsplit, then by output. -/
instance : Ord NoteLocation :=
  ⟨compareLex (compareOn (·.hash)) (compareLex (compareOn (·.joinSplit)) (compareOn (·.output)))⟩

instance : Std.TransOrd NoteLocation :=
  inferInstanceAs (Std.TransCmp (compareLex (compareOn NoteLocation.hash)
    (compareLex (compareOn NoteLocation.joinSplit) (compareOn NoteLocation.output))))

instance : Std.LawfulEqOrd NoteLocation where
  compare_self {a} := @Std.ReflCmp.compare_self NoteLocation
    (compareLex (compareOn NoteLocation.hash)
      (compareLex (compareOn NoteLocation.joinSplit) (compareOn NoteLocation.output))) _ a
  eq_of_compare {a b} h := by
    have h : (compare a.hash b.hash).then
      ((compare a.joinSplit b.joinSplit).then (compare a.output b.output)) = .eq := h
    obtain ⟨h1, h2⟩ := Ordering.then_eq_eq.1 h
    obtain ⟨h2, h3⟩ := Ordering.then_eq_eq.1 h2
    cases a; cases b
    cases Std.LawfulEqCmp.eq_of_compare h1
    cases Std.LawfulEqCmp.eq_of_compare h2
    cases Std.LawfulEqCmp.eq_of_compare h3
    rfl

/-- The hash and the two positions. -/
def encode (l : NoteLocation) : List UInt8 := l.hash.toList ++ encodeU64 l.joinSplit ++ [l.output]

/-- The displayed form. -/
def display (l : NoteLocation) : String :=
  "JSOutPoint(" ++ l.hash.shortDisplay 10 ++ ", " ++ toString l.joinSplit.toNat ++ ", " ++
    toString l.output.toNat ++ ")"

end NoteLocation

/-- A shielded payment address. -/
structure PaymentAddress where
  payingKey : Hash256
  transmissionKey : Hash256
deriving DecidableEq

instance : Inhabited PaymentAddress := ⟨⟨Bytes.zero, Bytes.zero⟩⟩

/-- What the wallet keeps of one of its notes. The nullifier is unknown while the spending key is
locked; the newest witness comes first. -/
structure NoteData where
  address : PaymentAddress
  nullifier : Option Hash256
  witnesses : List NoteWitness
  /-- The height the newest witness is valid for; -1 before the first chain update. -/
  witnessHeight : Int
deriving DecidableEq

namespace NoteData

/-- A note without witnesses. -/
def fresh (address : PaymentAddress) (nullifier : Option Hash256) : NoteData :=
  ⟨address, nullifier, [], -1⟩

/-- True if address and nullifier agree. Witnesses are cached state and do not count. -/
def sameNote (a b : NoteData) : Bool := a.address == b.address && a.nullifier == b.nullifier

/-- Forgets the witnesses. -/
def clearWitnesses (d : NoteData) : NoteData := { d with witnesses := [], witnessHeight := -1 }

/-- The address, the flagged nullifier, the witnesses and the height. -/
def encode (d : NoteData) : List UInt8 :=
  d.address.payingKey.toList ++ d.address.transmissionKey.toList ++
    encodeOptional Bytes.toList d.nullifier ++ encodeList Witness.encode d.witnesses ++
    encodeI32 (Int32.ofInt d.witnessHeight)

end NoteData

/-- Notes of one transaction, by location. -/
abbrev NoteMap := SortedMap NoteLocation NoteData

namespace NoteMap

/-- True if both hold the same notes. -/
def sameNotes (a b : NoteMap) : Bool :=
  a.keys == b.keys && (a.values.zip b.values).all fun (x, y) => x.sameNote y

/-- The locations, each with its note. -/
def encode (notes : NoteMap) : List UInt8 :=
  encodeList (fun (e : NoteLocation × NoteData) => e.1.encode ++ e.2.encode) notes.toList

end NoteMap

/-- The decrypted contents of a note. -/
structure NotePlaintext where
  value : Amount
  memo : List UInt8
deriving DecidableEq

/-- A decrypted note and where it is. -/
structure LocatedNote where
  location : NoteLocation
  address : PaymentAddress
  plaintext : NotePlaintext
deriving DecidableEq

end ShieldedLedger
