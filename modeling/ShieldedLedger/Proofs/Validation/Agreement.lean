import ShieldedLedger.Proofs.Record.Unambiguous
import ShieldedLedger.Proofs.Validation.Value

/-!
# Equal transactions are judged alike

The checks and the value of a transaction read its fields, not its encoding. They read the lists
that the version leaves out of the encoding as well, and nothing encoded says which joinsplits have
a proof of which scheme. Two transactions with one encoding that agree in both are judged alike and
have the same value (`Transaction.judged_alike`), and without either they need not be
(`Transaction.judged_apart`).
-/

namespace ShieldedLedger

/-- Lists that agree in a part of every item agree in what is made of that part. -/
theorem map_congr_of_map_eq {α β γ : Type} {as bs : List α} {part : α → β} (make : β → γ)
    (h : as.map part = bs.map part) :
    as.map (fun a => make (part a)) = bs.map (fun b => make (part b)) := by
  have made := congrArg (List.map make) h
  rwa [List.map_map, List.map_map] at made

/-- Lists that agree in a part of each item are both empty or both not. -/
theorem isEmpty_congr_of_map_eq {α β : Type} {as bs : List α} {part : α → β}
    (h : as.map part = bs.map part) : as.isEmpty = bs.isEmpty := by
  have empty := congrArg List.isEmpty h
  rwa [List.isEmpty_map, List.isEmpty_map] at empty

/-- What the checks and the value of a transaction read of a joinsplit. -/
def JoinSplit.checked (js : JoinSplit) : Amount × Amount × Hash256 × Hash256 :=
  (js.vpubOld, js.vpubNew, js.nullifiers)

namespace TxBody

/-- Two transactions agree in what is read of the crosschain outputs. -/
structure SameCrosschainValues (a b : TxBody) : Prop where
  creations : a.creations.map (·.value) = b.creations.map (·.value)
  locks : a.locks.map (·.value) = b.locks.map (·.value)
  forwards : a.forwards.map (·.value) = b.forwards.map (·.value)

/-- Two transactions agree in what is read of the lists that the version of the first leaves out of
the encoding. -/
structure SameLeftOut (a b : TxBody) : Prop where
  joinSplits : Version.isShielded a.version = false →
    a.joinSplits.map JoinSplit.checked = b.joinSplits.map JoinSplit.checked
  crosschain : a.version ≠ Version.sidechain → SameCrosschainValues a b

/-- Two transactions agree in what is read of them, apart from the size. -/
structure SameRead (a b : TxBody) : Prop extends SameCrosschainValues a b where
  version : a.version = b.version
  inputs : a.inputs = b.inputs
  outputs : a.outputs.map (·.value) = b.outputs.map (·.value)
  joinSplits : a.joinSplits.map JoinSplit.checked = b.joinSplits.map JoinSplit.checked

/-- What is read is encoded or left out by the version. -/
theorem SameWritten.sameRead {a b : TxBody} (h : SameWritten a b) (hleft : SameLeftOut a b) :
    SameRead a b where
  version := h.version
  inputs := h.inputs
  outputs := map_congr_of_map_eq Prod.fst h.outputs
  joinSplits := by
    cases hshielded : Version.isShielded a.version with
    | true => rw [h.joinSplits hshielded]
    | false => exact hleft.joinSplits hshielded
  toSameCrosschainValues := by
    by_cases hside : a.version = Version.sidechain
    · obtain ⟨hcreations, hlocks, hforwards⟩ := h.crosschain hside
      exact ⟨by rw [hcreations], by rw [hlocks], by rw [hforwards]⟩
    · exact hleft.crosschain hside

end TxBody

namespace Transaction

variable {a b : Transaction}

/-! ## What the checks read -/

/-- What leaves the transparent pool depends on what is read only. -/
theorem leaving_congr (h : a.body.SameRead b.body) :
    (Record.transaction a).leaving = (Record.transaction b).leaving :=
  congrArg₂ (· ++ ·) (map_congr_of_map_eq Item.output h.outputs)
    (map_congr_of_map_eq (fun c => Item.vpubs c.1 c.2.1) h.joinSplits)

/-- What the joinsplits release depends on what is read only. -/
theorem releasing_congr (h : a.body.SameRead b.body) :
    (Record.transaction a).releasing = (Record.transaction b).releasing :=
  map_congr_of_map_eq (fun c : Amount × Amount × Hash256 × Hash256 => Item.released c.2.1)
    h.joinSplits

/-- What leaves for sidechains depends on what is read only. -/
theorem crossing_congr (h : a.body.SameRead b.body) : a.crossing = b.crossing :=
  congrArg₂ (· ++ ·) (congrArg₂ (· ++ ·)
    (map_congr_of_map_eq (Item.crosschain .creationAmount) h.creations)
    (map_congr_of_map_eq (Item.crosschain .lockAmount) h.locks))
    (map_congr_of_map_eq (Item.crosschain .forwardAmount) h.forwards)

/-- The nullifiers depend on what is read only. -/
theorem nullifiers_congr (h : a.body.SameRead b.body) : a.nullifiers = b.nullifiers := by
  have lists := map_congr_of_map_eq (fun c => [c.2.2.1, c.2.2.2]) h.joinSplits
  exact congrArg List.flatten lists

/-- Whether a transaction is a coinbase depends on its inputs only. -/
theorem isCoinbase_congr (h : a.body.SameRead b.body) : a.isCoinbase = b.isCoinbase := by
  simp only [isCoinbase, h.inputs]

/-- Whether anything leaves for sidechains depends on what is read only. -/
theorem hasNoCrosschain_congr (h : a.body.SameRead b.body) :
    a.hasNoCrosschain = b.hasNoCrosschain := by
  simp only [hasNoCrosschain, isEmpty_congr_of_map_eq h.creations,
    isEmpty_congr_of_map_eq h.locks, isEmpty_congr_of_map_eq h.forwards]

/-- Every check finds the same in transactions that agree in what is read of them and in size. -/
theorem Check.violation?_congr (h : a.body.SameRead b.body) (hsize : a.size = b.size)
    (check : Check) : check.violation? a = check.violation? b := by
  have empty := isEmpty_congr_of_map_eq h.joinSplits
  have inputs : (Record.transaction a).inputs = (Record.transaction b).inputs := h.inputs
  cases check
  case version => simp only [violation?, versionViolation?, h.version]
  case inputs => simp only [violation?, inputsViolation?, h.inputs, empty]
  case outputs =>
    simp only [violation?, outputsViolation?, isEmpty_congr_of_map_eq h.outputs, empty,
      hasNoCrosschain_congr h]
  case size =>
    have size : (Record.transaction a).size = (Record.transaction b).size := hsize
    simp only [violation?, Record.sizeViolation?, size]
  case outputsAmount =>
    simp only [violation?, Record.outputsAmountViolation?_eq, leaving_congr h]
  case inputsAmount =>
    simp only [violation?, Record.inputsAmountViolation?_eq, releasing_congr h]
  case crosschain => simp only [violation?, crosschainViolation?_eq, crossing_congr h]
  case duplication =>
    have nullifiers : (Record.transaction a).nullifiers = (Record.transaction b).nullifiers :=
      nullifiers_congr h
    simp only [violation?, Record.duplicationViolation?, inputs, nullifiers]
  case interaction =>
    have coinbase : (Record.transaction a).isCoinbase = (Record.transaction b).isCoinbase :=
      isCoinbase_congr h
    have joinSplits : (Record.transaction a).joinSplits.isEmpty =
        (Record.transaction b).joinSplits.isEmpty := empty
    simp only [violation?, Record.interactionViolation?, coinbase, inputs, joinSplits]

/-- The value a transaction pays out depends on what is read only. -/
theorem valueOut_congr (h : a.body.SameRead b.body) : a.valueOut = b.valueOut := by
  have vpubOld : a.body.joinSplits.map (·.vpubOld) = b.body.joinSplits.map (·.vpubOld) :=
    map_congr_of_map_eq (fun c => c.1) h.joinSplits
  simp only [valueOut, outputTotal, foldlM_vpubOld, h.outputs, vpubOld, h.creations, h.locks,
    h.forwards]

/-! ## Equal transactions -/

/-- Two transactions with one encoding are the same record. If they also agree in what is read of
the lists that their version leaves out, and either neither mixes proof schemes or their schemes are
the same one by one, then the checks give them the same verdict, for the same reason, and they have
the same value. An encoding of 2^64 bytes or more is left aside. -/
theorem judged_alike (hschemes : a.body.SchemesAgree b.body) (hleft : a.body.SameLeftOut b.body)
    (hsize : a.size < UInt64.size) (h : a.encode = b.encode) :
    a.sameRecord b = true ∧
      (∀ (σ : Type) [RejectionSink σ] (sink : σ),
        a.checkWithoutProof sink = b.checkWithoutProof sink) ∧
      a.valueOut = b.valueOut := by
  have read := (TxBody.sameWritten_of_encode_eq hschemes hsize h).sameRead hleft
  have size : a.size = b.size := congrArg List.length h
  refine ⟨?_, fun σ _ sink => ?_, valueOut_congr read⟩
  · rw [sameRecord, a.hash_eq, b.hash_eq, beq_iff_eq]
    exact congrArg sha256d h
  · have violation : a.violation? = b.violation? := by
      simp only [violation?_eq_findSome?, Check.violation?_congr read size]
    rw [checkWithoutProof, checkWithoutProof, violation]

/-- A payment of 600 in a version without joinsplits, with joinsplits all the same. -/
def withStrayJoinSplits (fromBackwardTransfer : Bool) (joinSplits : List JoinSplit) : Transaction :=
  TxBody.freeze { TxBody.blank with
    outputs := [⟨600, ⟨[0x51]⟩, fromBackwardTransfer⟩]
    joinSplits := joinSplits }

/-- A joinsplit that takes in 5 and produces a note. -/
def takingIn (commitment : Hash256) : JoinSplit :=
  { JoinSplit.blank true with
    vpubOld := 5
    nullifiers := (Bytes.filled 32 1, Bytes.filled 32 2)
    commitments := (commitment, Bytes.zero) }

/-- Two transactions with stray joinsplits that differ in a commitment and in where the output comes
from are judged alike. -/
theorem judged_alike_strays :
    ∃ a b : Transaction, a.body ≠ b.body ∧ a.body.SchemesAgree b.body ∧
      a.body.SameLeftOut b.body ∧ a.size < UInt64.size ∧ a.encode = b.encode ∧
      a.checkWithoutProof ValidationState.initial = b.checkWithoutProof ValidationState.initial ∧
      a.valueOut = b.valueOut := by
  let a := withStrayJoinSplits false [takingIn (Bytes.filled 32 3)]
  let b := withStrayJoinSplits true [takingIn (Bytes.filled 32 4)]
  have schemes : a.body.SchemesAgree b.body := .inl rfl
  have left : a.body.SameLeftOut b.body := ⟨fun _ => rfl, fun _ => ⟨rfl, rfl, rfl⟩⟩
  have size : a.size < UInt64.size := by decide +kernel
  have same : a.encode = b.encode := by decide +kernel
  obtain ⟨-, verdict, value⟩ := judged_alike schemes left size same
  exact ⟨a, b, by decide, schemes, left, size, same, verdict _ _, value⟩

/-- Two transactions have one encoding, but the checks accept only one of them, and their values
differ. -/
def JudgedApart (a b : Transaction) : Prop :=
  a.encode = b.encode ∧
    (a.checkWithoutProof ValidationState.initial).1 ≠
      (b.checkWithoutProof ValidationState.initial).1 ∧
    a.valueOut ≠ b.valueOut

instance (a b : Transaction) : Decidable (JudgedApart a b) :=
  inferInstanceAs (Decidable (_ ∧ _ ∧ _))

/-- A transaction of a version without crosschain outputs, with crosschain outputs all the same. -/
def withStrayForwards (forwards : List ForwardTransfer) : Transaction :=
  TxBody.freeze { TxBody.blank with
    version := Version.groth
    inputs := [⟨⟨Bytes.filled 32 0x77, 0⟩, ⟨[]⟩, 0⟩]
    forwards := forwards }

/-- A transaction with two joinsplits, which have a proof of the newer scheme or not. -/
def mixing (first second : Bool) (nullifier : Hash256) (vpubOld : Amount) : Transaction :=
  TxBody.freeze { TxBody.blank with
    version := Version.phgr
    joinSplits := [
      { JoinSplit.blank first with nullifiers := (Bytes.filled 32 1, Bytes.filled 32 2) },
      { JoinSplit.blank second with
        vpubOld := vpubOld
        nullifiers := (Bytes.zero, nullifier) }] }

/-- One encoding does not settle how a transaction is judged: there may be joinsplits or crosschain
outputs that the version leaves out, and where schemes are mixed a nullifier may be read as the
value that another joinsplit takes in. -/
theorem judged_apart :
    JudgedApart (withStrayJoinSplits false []) (withStrayJoinSplits false [takingIn Bytes.zero]) ∧
    JudgedApart (withStrayForwards []) (withStrayForwards [⟨Bytes.zero, 5, Bytes.zero⟩]) ∧
    JudgedApart
      (mixing true false ⟨List.replicate 24 0 ++ List.replicate 8 0xff, rfl⟩ 0)
      (mixing false true Bytes.zero (-1)) := by
  refine ⟨?_, ?_, ?_⟩ <;> decide +kernel

end Transaction
end ShieldedLedger
