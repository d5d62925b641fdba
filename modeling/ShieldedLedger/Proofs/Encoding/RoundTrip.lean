import ShieldedLedger.Proofs.Encoding.Unambiguous

/-!
# Reading back what was written

A reader reads a value back from its encoding if it takes just the encoding off any byte string that
starts with it (`Reader.ReadsBack`). Readers one after the other read back encodings one after the
other (`Reader.ReadsBack.bind`). So optional values are read back if values are
(`Reader.ReadsBack.optional`), and so are counted lists that are not longer than the largest count
accepted (`Reader.ReadsBack.list`).
-/

namespace ShieldedLedger
namespace Reader

variable {α β : Type}

/-- The reader takes just `bytes` off any byte string that starts with them, and reads `a`. -/
def ReadsBack (r : Reader α) (bytes : List UInt8) (a : α) : Prop :=
  ∀ rest, r (bytes ++ rest) = .ok (a, rest)

namespace ReadsBack

variable {r : Reader α} {encode : α → List UInt8} {bytes : List UInt8} {a : α} {b : β}

theorem pure (a : α) : ReadsBack (Reader.pure a) [] a := fun _ => rfl

/-- Two readers one after the other read back two encodings one after the other. -/
theorem bind {f : α → Reader β} {bytes' : List UInt8} (h : ReadsBack r bytes a)
    (h' : ReadsBack (f a) bytes' b) : ReadsBack (Reader.bind r f) (bytes ++ bytes') b := by
  intro rest
  rw [List.append_assoc, Reader.bind, h]
  exact h' rest

/-- What is made of a value is read back with it. -/
theorem bind_pure {f : α → Reader β} (h : ReadsBack r bytes a) (hf : f a = Reader.pure b) :
    ReadsBack (Reader.bind r f) bytes b := by
  intro rest
  rw [Reader.bind, h]
  exact congrFun hf rest

theorem byte (b : UInt8) : ReadsBack Reader.byte [b] b := fun _ => rfl

theorem take {n : Nat} (bytes : Bytes n) : ReadsBack (Reader.take n) bytes.toList bytes :=
  take_append bytes

/-- A value is read back after its flag, or its absence from the flag alone. -/
theorem optional : ∀ {o : Option α}, (∀ a, o = some a → ReadsBack r (encode a) a) →
    ReadsBack (Reader.optional r) (encodeOptional encode o) o
  | none, _ => fun _ => rfl
  | some a, h =>
    have value : ReadsBack (Reader.bind r fun a => Reader.pure (some a)) (encode a) (some a) :=
      (h a rfl).bind_pure rfl
    bind (byte 1) value

/-- Items are read back one after the other. -/
theorem replicate : ∀ {items : List α}, (∀ a ∈ items, ReadsBack r (encode a) a) →
    ReadsBack (Reader.replicate r items.length) (items.flatMap encode) items
  | [], _ => pure []
  | a :: items, h => by
    obtain ⟨first, others⟩ := List.forall_mem_cons.1 h
    have after : ReadsBack (Reader.bind (Reader.replicate r items.length) fun as =>
        Reader.pure (a :: as)) (items.flatMap encode) (a :: items) :=
      (replicate others).bind_pure rfl
    exact bind first after

/-- A count within the limit is read back. -/
theorem count {n : Nat} (h : n ≤ maxCount) : ReadsBack readCount (encodeCount n) n := by
  have fits : n < UInt64.size := Nat.lt_of_le_of_lt h (by decide)
  exact bind_pure (readAnyCount_encodeCount fits) (if_neg (Nat.not_lt.2 h))

/-- A list is read back after its count. -/
theorem list {items : List α} (hcount : items.length ≤ maxCount)
    (h : ∀ a ∈ items, ReadsBack r (encode a) a) :
    ReadsBack (readList r) (encodeList encode items) items :=
  ReadsBack.bind (count hcount) (replicate h)

end ReadsBack
end Reader
end ShieldedLedger
