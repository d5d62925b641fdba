import ShieldedLedger.Bytes.Hex
import ShieldedLedger.Bytes.Integer

/-!
# References to outputs

An `OutPoint` names the `index`-th output of the record with a given hash. The null reference is
what the input of a coinbase carries. References are ordered by hash, then by index.
-/

namespace ShieldedLedger

/-- Reference to an output of a record. -/
structure OutPoint where
  hash : Hash256
  index : UInt32
deriving DecidableEq

namespace OutPoint

/-- References are compared by hash, then by index. -/
instance : Ord OutPoint := ⟨compareLex (compareOn (·.hash)) (compareOn (·.index))⟩

instance : Std.TransOrd OutPoint :=
  inferInstanceAs (Std.TransCmp (compareLex (compareOn OutPoint.hash) (compareOn OutPoint.index)))

instance : Std.LawfulEqOrd OutPoint where
  compare_self {a} := @Std.ReflCmp.compare_self OutPoint
    (compareLex (compareOn OutPoint.hash) (compareOn OutPoint.index)) _ a
  eq_of_compare {a b} h := by
    have h : (compare a.hash b.hash).then (compare a.index b.index) = .eq := h
    obtain ⟨h1, h2⟩ := Ordering.then_eq_eq.1 h
    cases a; cases b
    cases Std.LawfulEqCmp.eq_of_compare h1
    cases Std.LawfulEqCmp.eq_of_compare h2
    rfl

/-- The reference a coinbase input carries. -/
def null : OutPoint := ⟨Bytes.zero, 0xffffffff⟩

/-- True for the reference a coinbase input carries. -/
def isNull (o : OutPoint) : Bool := o.hash.isZero && o.index == 0xffffffff

/-- The hash, then the index. -/
def encode (o : OutPoint) : List UInt8 := o.hash.toList ++ encodeU32 o.index

/-- The displayed form. -/
def display (o : OutPoint) : String :=
  "OutPoint(" ++ o.hash.shortDisplay 10 ++ ", " ++ toString o.index.toNat ++ ")"

/-- The form used for inspection, with the whole hash. -/
def inspect (o : OutPoint) : String :=
  "OutPoint \x7b hash: Uint256(" ++ o.hash.display ++ "), n: " ++ toString o.index.toNat ++ " \x7d"

/-- There is one null reference. -/
theorem isNull_iff {o : OutPoint} : o.isNull = true ↔ o = null := by
  cases o
  simp [isNull, null, Bytes.isZero_iff]

end OutPoint
end ShieldedLedger
