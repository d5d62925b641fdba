import Mathlib.Data.List.Basic
import ShieldedLedger.Proofs.Record.Unambiguous
import ShieldedLedger.Record.Certificate

/-!
# What a certificate's encoding says of its outputs

A certificate is encoded with its ordinary outputs and its backward transfers in two lists, and of a
backward transfer only value and receiver are kept. So certificates with one encoding agree in
either list (`CertBody.sameWritten_of_encode?_eq`), and hence have as many outputs. The encoding
does not say how the two kinds are mixed, nor what a backward transfer's script holds beside the
receiver: the outputs agree one by one exactly if they agree in these two things too
(`Certificate.outputs_pinned`). They do if ordinary outputs come first and the backward transfers
have standard scripts (`CertBody.Tidy`). Both are left open indeed (`Certificate.outputs_apart`).
-/

namespace ShieldedLedger

/-! ## Outputs -/

/-- The encoding of a backward transfer tells the transfer. -/
theorem BackwardTransfer.tells_encode : Tells BackwardTransfer.encode id := by
  have parts := (tells_encodeI64.comp BackwardTransfer.value).append
    (tells_toList.comp BackwardTransfer.pubkeyHash)
  refine parts.imp ?_
  rintro ⟨_, _⟩ ⟨_, _⟩ h
  simp_all

namespace TxOut

/-- What a certificate's encoding says of an output: its value, and its script or, if it is a
backward transfer, the public key hash that the script carries. -/
def pinned (o : TxOut) : Amount × (Script ⊕ Option Hash160) :=
  (o.value, if o.fromBackwardTransfer then .inr o.script.pubkeyHash? else .inl o.script)

/-- Of the output that a backward transfer turns into, the value and the hash are pinned. -/
theorem pinned_toOutput (transfer : BackwardTransfer) :
    transfer.toOutput.pinned = (transfer.value, .inr (some transfer.pubkeyHash)) := by
  simp [pinned, BackwardTransfer.toOutput]

/-- The standard output tells its transfer. -/
theorem eq_of_pinned_toOutput_eq {transfer transfer' : BackwardTransfer}
    (h : transfer.toOutput.pinned = transfer'.toOutput.pinned) : transfer = transfer' := by
  rw [pinned_toOutput, pinned_toOutput] at h
  cases transfer
  cases transfer'
  simp_all

/-- Of a backward transfer that can be encoded this is what is said of the standard output. -/
theorem pinned_of_backwardTransfer? {o : TxOut} {transfer : BackwardTransfer}
    (hflag : o.fromBackwardTransfer = true) (h : o.backwardTransfer? = some transfer) :
    o.pinned = transfer.toOutput.pinned := by
  obtain ⟨hash, hhash, rfl⟩ := Option.map_eq_some_iff.1 h
  rw [pinned_toOutput, pinned, if_pos hflag, hhash]

/-- With the script it tells the output. -/
theorem eq_of_pinned_eq {o o' : TxOut} (hpinned : o.pinned = o'.pinned)
    (hscript : o.script = o'.script) : o = o' := by
  obtain ⟨value, script, flag⟩ := o
  obtain ⟨value', script', flag'⟩ := o'
  obtain rfl : script = script' := hscript
  cases flag <;> cases flag' <;> simp_all [pinned]

/-- Outputs that are all backward transfers are pinned by the transfers they stand for. -/
theorem map_pinned_of_mapM_eq_some : ∀ {outputs : List TxOut} {transfers : List BackwardTransfer},
    (∀ o ∈ outputs, o.fromBackwardTransfer = true) →
    outputs.mapM backwardTransfer? = some transfers →
      outputs.map pinned = transfers.map (·.toOutput.pinned)
  | [], _, _, h => by
    obtain rfl := Option.some.inj h
    rfl
  | o :: outputs, _, hflags, h => by
    simp only [List.mapM_cons, Option.bind_eq_bind, Option.bind_eq_some_iff] at h
    obtain ⟨transfer, ho, transfers, hrest, h⟩ := h
    obtain rfl := Option.some.inj h
    obtain ⟨hflag, hflags⟩ := List.forall_mem_cons.1 hflags
    exact congrArg₂ List.cons (pinned_of_backwardTransfer? hflag ho)
      (map_pinned_of_mapM_eq_some hflags hrest)

end TxOut

/-- A list is told by the items that pass a test, those that do not, and where they stand among each
other. -/
theorem map_eq_of_filter {α β : Type} {p : α → Bool} {f : α → β} : ∀ {as bs : List α},
    as.map p = bs.map p → (as.filter (!p ·)).map f = (bs.filter (!p ·)).map f →
      (as.filter p).map f = (bs.filter p).map f → as.map f = bs.map f
  | [], [], _, _, _ => rfl
  | [], _ :: _, hflags, _, _ => nomatch hflags
  | _ :: _, [], hflags, _, _ => nomatch hflags
  | a :: as, b :: bs, hflags, hfail, hpass => by
    obtain ⟨hflag, hflags⟩ := List.cons_eq_cons.1 hflags
    cases ha : p a with
    | false =>
      have hb := hflag.symm.trans ha
      simp only [List.filter_cons, ha, hb, Bool.not_false, if_true, List.map_cons] at hfail
      simp only [List.filter_cons, ha, hb, Bool.false_eq_true, if_false] at hpass
      obtain ⟨hhead, hfail⟩ := List.cons_eq_cons.1 hfail
      exact congrArg₂ List.cons hhead (map_eq_of_filter hflags hfail hpass)
    | true =>
      have hb := hflag.symm.trans ha
      simp only [List.filter_cons, ha, hb, if_true, List.map_cons] at hpass
      simp only [List.filter_cons, ha, hb, Bool.not_true, Bool.false_eq_true, if_false] at hfail
      obtain ⟨hhead, hpass⟩ := List.cons_eq_cons.1 hpass
      exact congrArg₂ List.cons hhead (map_eq_of_filter hflags hfail hpass)

/-! ## Certificates -/

namespace CertBody

variable {a b c : CertBody} {bytes : List UInt8} {transfers : List BackwardTransfer}

/-- Two certificates agree on everything that is encoded: on their ordinary outputs and, apart from
them, on the values and receivers of their backward transfers, each in order. -/
structure SameWritten (a b : CertBody) : Prop where
  version : a.version = b.version
  sidechain : a.sidechain = b.sidechain
  epoch : a.epoch = b.epoch
  endBlock : a.endBlock = b.endBlock
  ordinary : a.ordinary = b.ordinary
  transfers : a.backwardTransfers? = b.backwardTransfers?
  nonce : a.nonce = b.nonce

/-- The backward outputs are those that come from a backward transfer. -/
theorem fromBackwardTransfer_of_mem_backward {o : TxOut} (h : o ∈ c.backward) :
    o.fromBackwardTransfer = true :=
  (List.mem_filter.1 h).2

/-- The values and scripts of the ordinary outputs are all there is to them. -/
theorem ordinary_eq_map_written (c : CertBody) :
    c.ordinary = (c.ordinary.map TxOut.written).map fun (value, script) =>
      ⟨value, script, false⟩ := by
  rw [List.map_map]
  refine (List.map_id c.ordinary).symm.trans (List.map_congr_left fun o ho => ?_)
  have hflag : o.fromBackwardTransfer = false := by simpa using (List.mem_filter.1 ho).2
  obtain ⟨value, script, flag⟩ := o
  obtain rfl : flag = false := hflag
  rfl

/-- The encoding is that of the fields in order, with the outputs in two lists. -/
theorem eq_of_encode?_eq_some (h : c.encode? = some bytes) :
    ∃ transfers, c.backwardTransfers? = some transfers ∧
      bytes = encodeI32 c.version ++ c.sidechain.toList ++ encodeI32 c.epoch ++ c.endBlock.toList ++
        encodeList TxOut.encode c.ordinary ++ encodeList BackwardTransfer.encode transfers ++
        c.nonce.toList := by
  obtain ⟨transfers, htransfers, rfl⟩ := Option.map_eq_some_iff.1 h
  have pinned := TxOut.map_pinned_of_mapM_eq_some
    (fun o => fromBackwardTransfer_of_mem_backward) htransfers
  have length : c.backward.length = transfers.length := by
    simpa using congrArg List.length pinned
  refine ⟨transfers, htransfers, ?_⟩
  simp only [encodeHead, length, encodeList, List.append_assoc]

/-- The fields in order, the backward transfers among them, tell what they are. -/
theorem tells_fields : Tells (fun c : CertBody × List BackwardTransfer =>
      encodeI32 c.1.version ++ c.1.sidechain.toList ++ encodeI32 c.1.epoch ++
        c.1.endBlock.toList ++ encodeList TxOut.encode c.1.ordinary ++
        encodeList BackwardTransfer.encode c.2 ++ c.1.nonce.toList)
    (fun c => ((((((c.1.version, c.1.sidechain), c.1.epoch), c.1.endBlock),
      c.1.ordinary.map TxOut.written), c.2), c.1.nonce)) := by
  have ordinary := TxOut.tells_encode.encodeList fun o => by
    simp [TxOut.encode, encodeI64, littleEndian]
  have backward := BackwardTransfer.tells_encode.encodeList fun t => by
    simp [BackwardTransfer.encode, encodeI64, littleEndian]
  have word (part : CertBody → Int32) :=
    tells_encodeI32.comp fun c : CertBody × List BackwardTransfer => part c.1
  have hash (part : CertBody → Hash256) :=
    tells_toList.comp fun c : CertBody × List BackwardTransfer => part c.1
  have parts := ((((((word version).append (hash sidechain)).append (word epoch)).append
    (hash endBlock)).append (ordinary.comp fun c => c.1.ordinary)).append
    (backward.comp Prod.snd)).append (hash nonce)
  refine parts.imp fun {a b} h => ?_
  simpa using h

/-- Certificates with one encoding agree on everything that is encoded. -/
theorem sameWritten_of_encode?_eq (ha : a.encode? = some bytes) (hb : b.encode? = some bytes)
    (hsize : bytes.length < UInt64.size) : SameWritten a b := by
  obtain ⟨transfers, htransfers, rfl⟩ := eq_of_encode?_eq_some ha
  obtain ⟨transfers', htransfers', heq⟩ := eq_of_encode?_eq_some hb
  have told := @tells_fields (a, transfers) (b, transfers') [] []
    (by rwa [List.append_nil]) (by rw [List.append_nil, List.append_nil]; exact heq)
  simp only [Prod.mk.injEq, and_true] at told
  obtain ⟨⟨⟨⟨⟨⟨hversion, hsidechain⟩, hepoch⟩, hend⟩, hordinary⟩, hbackward⟩, hnonce⟩ := told
  refine ⟨hversion, hsidechain, hepoch, hend, ?_, ?_, hnonce⟩
  · rw [ordinary_eq_map_written a, hordinary, ← ordinary_eq_map_written]
  · rw [htransfers, htransfers', hbackward]

/-- Ordinary outputs come first, and after them what the backward transfers are paid out with. -/
def Tidy (c : CertBody) : Prop :=
  ∃ transfers : List BackwardTransfer, c.outputs = c.ordinary ++ transfers.map (·.toOutput)

/-- The backward transfers of tidy outputs. -/
theorem backward_eq_of_outputs_eq (h : c.outputs = c.ordinary ++ transfers.map (·.toOutput)) :
    c.backward = transfers.map (·.toOutput) := by
  have none : c.ordinary.filter (·.fromBackwardTransfer) = [] := by
    rw [ordinary, List.filter_filter]
    simp
  have all : (transfers.map (·.toOutput)).filter (·.fromBackwardTransfer) =
      transfers.map (·.toOutput) := by
    rw [List.filter_eq_self]
    intro o ho
    obtain ⟨transfer, -, rfl⟩ := List.mem_map.1 ho
    rfl
  rw [backward, h, List.filter_append, none, all, List.nil_append]

namespace SameWritten

variable (h : SameWritten a b) (htransfers : a.backwardTransfers? = some transfers)
include h htransfers

/-- The backward transfers are pinned alike. -/
theorem backward_map_pinned : a.backward.map TxOut.pinned = b.backward.map TxOut.pinned := by
  rw [TxOut.map_pinned_of_mapM_eq_some (fun o => fromBackwardTransfer_of_mem_backward) htransfers,
    TxOut.map_pinned_of_mapM_eq_some (fun o => fromBackwardTransfer_of_mem_backward)
      (h.transfers.symm.trans htransfers)]

/-- There are as many outputs. -/
theorem length_eq : a.outputs.length = b.outputs.length := by
  have count (c : CertBody) : c.outputs.length = c.backward.length + c.ordinary.length :=
    List.length_eq_length_filter_add _
  have backward : a.backward.length = b.backward.length := by
    simpa using congrArg List.length (h.backward_map_pinned htransfers)
  rw [count a, count b, backward, h.ordinary]

/-- Where the two kinds are mixed alike, each output is pinned. -/
theorem map_pinned_eq (hflags : a.outputs.map (·.fromBackwardTransfer) =
      b.outputs.map (·.fromBackwardTransfer)) :
    a.outputs.map TxOut.pinned = b.outputs.map TxOut.pinned :=
  map_eq_of_filter hflags (congrArg (List.map TxOut.pinned) h.ordinary)
    (h.backward_map_pinned htransfers)

/-- Where the scripts of the backward transfers agree besides, each output is the same. -/
theorem outputs_eq (hflags : a.outputs.map (·.fromBackwardTransfer) =
      b.outputs.map (·.fromBackwardTransfer))
    (hscripts : a.backward.map (·.script) = b.backward.map (·.script)) :
    a.outputs = b.outputs := by
  have pinned := h.map_pinned_eq htransfers hflags
  have scripts : a.outputs.map (·.script) = b.outputs.map (·.script) :=
    map_eq_of_filter hflags (congrArg (List.map (·.script)) h.ordinary) hscripts
  have both := congrArg₂ List.zip pinned scripts
  rw [List.zip_map', List.zip_map'] at both
  refine List.map_injective_iff.2 (fun o o' heq => ?_) both
  obtain ⟨hpinned, hscript⟩ := Prod.mk.inj heq
  exact TxOut.eq_of_pinned_eq hpinned hscript

/-- So it is where the outputs are tidy. -/
theorem outputs_eq_of_tidy (ha : a.Tidy) (hb : b.Tidy) : a.outputs = b.outputs := by
  obtain ⟨ts, hts⟩ := ha
  obtain ⟨ts', hts'⟩ := hb
  have pinned := h.backward_map_pinned htransfers
  rw [backward_eq_of_outputs_eq hts, backward_eq_of_outputs_eq hts', List.map_map,
    List.map_map] at pinned
  have same : ts = ts' :=
    List.map_injective_iff.2 (fun _ _ => TxOut.eq_of_pinned_toOutput_eq) pinned
  rw [hts, hts', h.ordinary, same]

end SameWritten

end CertBody

/-- Certificates with one encoding have as many outputs, the same ordinary outputs in the same
order, and backward transfers of the same values and receivers in the same order. Where the two
kinds are mixed alike, they agree output by output on value and kind, and on the script or, of a
backward transfer, on the public key hash it carries. All their outputs are the same exactly if the
two kinds are mixed alike and the backward transfers have the same scripts. So they are if ordinary
outputs come first and the scripts of backward transfers are standard. Encodings of 2^64 bytes or
more, which no memory holds, are left aside. -/
theorem Certificate.outputs_pinned {a b : Certificate} {bytes : List UInt8}
    (ha : a.encode? = some bytes) (hb : b.encode? = some bytes)
    (hsize : bytes.length < UInt64.size) :
    a.body.outputs.length = b.body.outputs.length ∧
      a.body.ordinary = b.body.ordinary ∧
      a.body.backwardTransfers? = b.body.backwardTransfers? ∧
      (a.body.outputs.map (·.fromBackwardTransfer) = b.body.outputs.map (·.fromBackwardTransfer) →
        a.body.outputs.map TxOut.pinned = b.body.outputs.map TxOut.pinned) ∧
      (a.body.outputs = b.body.outputs ↔
        a.body.outputs.map (·.fromBackwardTransfer) = b.body.outputs.map (·.fromBackwardTransfer) ∧
          a.body.backward.map (·.script) = b.body.backward.map (·.script)) ∧
      (a.body.Tidy → b.body.Tidy → a.body.outputs = b.body.outputs) := by
  have same := CertBody.sameWritten_of_encode?_eq ha hb hsize
  obtain ⟨transfers, htransfers, -⟩ := CertBody.eq_of_encode?_eq_some ha
  refine ⟨same.length_eq htransfers, same.ordinary, same.transfers, same.map_pinned_eq htransfers,
    ⟨fun h => ?_, fun ⟨hflags, hscripts⟩ => same.outputs_eq htransfers hflags hscripts⟩,
    same.outputs_eq_of_tidy htransfers⟩
  unfold CertBody.backward
  rw [h]
  exact ⟨rfl, rfl⟩

namespace CertBody

/-- Pays 500 to anyone. -/
def payment : TxOut := ⟨500, ⟨[0x51]⟩, false⟩

/-- A transfer of 600 to the hash zero. -/
def transfer : BackwardTransfer := ⟨600, Bytes.zero⟩

/-- The transfer, paid out by a script that holds the same hash and nothing else of the standard
one. -/
def bareOutput : TxOut := ⟨600, ⟨Script.opHash160 :: 20 :: transfer.pubkeyHash.toList⟩, true⟩

end CertBody

/-- A certificate with the given outputs. -/
def Certificate.paying (outputs : List TxOut) : Certificate :=
  CertBody.freeze { CertBody.blank with outputs }

/-- A payment and a transfer, with one script or the other, are pinned alike. -/
theorem Certificate.outputs_pinned_bare :
    ∃ (a b : Certificate) (bytes : List UInt8), a.encode? = some bytes ∧ b.encode? = some bytes ∧
      bytes.length < UInt64.size ∧ a.body.outputs ≠ b.body.outputs ∧
      a.body.outputs.map TxOut.pinned = b.body.outputs.map TxOut.pinned := by
  let a := Certificate.paying [CertBody.payment, CertBody.transfer.toOutput]
  let b := Certificate.paying [CertBody.payment, CertBody.bareOutput]
  have written : a.encode? = some a.body.written := by decide +kernel
  have same : b.encode? = some a.body.written := by decide +kernel
  have size : a.body.written.length < UInt64.size := by decide +kernel
  obtain ⟨-, -, -, pinned, -⟩ := outputs_pinned written same size
  exact ⟨a, b, _, written, same, size, by decide, pinned rfl⟩

/-- Two certificates have one encoding, but their outputs of one index are not the same. -/
def Certificate.ApartAt (index : Nat) (a b : Certificate) : Prop :=
  a.encode?.isSome = true ∧ a.encode? = b.encode? ∧ a.body.outputs[index]? ≠ b.body.outputs[index]?

instance (index : Nat) (a b : Certificate) : Decidable (a.ApartAt index b) :=
  inferInstanceAs (Decidable (_ ∧ _ ∧ _))

/-- One encoding does not settle which output an index refers to: the transfer may stand before the
payment, and its script may be another one. -/
theorem Certificate.outputs_apart :
    (Certificate.paying [CertBody.payment, CertBody.transfer.toOutput]).ApartAt 0
      (Certificate.paying [CertBody.transfer.toOutput, CertBody.payment]) ∧
    (Certificate.paying [CertBody.payment, CertBody.transfer.toOutput]).ApartAt 1
      (Certificate.paying [CertBody.payment, CertBody.bareOutput]) := by
  constructor <;> decide +kernel

end ShieldedLedger
