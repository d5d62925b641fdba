import ShieldedLedger.Proofs.Encoding.Unambiguous
import ShieldedLedger.Record.Transaction

/-!
# Transactions are told by their encoding

Two transactions with one encoding agree on every field that is encoded
(`Transaction.encode_unambiguous`). Every part but the joinsplits tells where it ends. The proof of
a joinsplit has one of two widths and nothing says which, so joinsplits are taken apart only if
their schemes are known (`eq_of_flatMap_encode`). A transaction that keeps to one scheme gives it
away by the length of the encoding (`schemes_eq_of_length_eq`).
-/

namespace ShieldedLedger

/-! ## Inputs and outputs -/

/-- The encoding of an outpoint tells the outpoint. -/
theorem OutPoint.tells_encode : Tells OutPoint.encode id := by
  have parts := (tells_toList.comp OutPoint.hash).append (tells_encodeU32.comp OutPoint.index)
  refine parts.imp ?_
  rintro ⟨_, _⟩ ⟨_, _⟩ h
  simp_all

/-- The encoding of an input tells the input. -/
theorem TxIn.tells_encode : Tells TxIn.encode id := by
  have parts := ((OutPoint.tells_encode.comp TxIn.prevout).append
    (tells_encodeBytes.comp fun i : TxIn => i.script.bytes)).append
    (tells_encodeU32.comp TxIn.sequence)
  refine parts.imp ?_
  rintro ⟨_, ⟨_⟩, _⟩ ⟨_, ⟨_⟩, _⟩ h
  simp_all

/-- What is encoded of an output: all but where it comes from. -/
def TxOut.written (o : TxOut) : Amount × Script := (o.value, o.script)

/-- The encoding of an output tells what is written of it. -/
theorem TxOut.tells_encode : Tells TxOut.encode TxOut.written := by
  have parts := (tells_encodeI64.comp TxOut.value).append
    (tells_encodeBytes.comp fun o : TxOut => o.script.bytes)
  refine parts.imp ?_
  rintro ⟨_, ⟨_⟩, _⟩ ⟨_, ⟨_⟩, _⟩ h
  simp_all [TxOut.written]

/-! ## Crosschain outputs -/

/-- The encoding of a creation tells the creation. -/
theorem SidechainCreation.tells_encode : Tells SidechainCreation.encode id := by
  have parts := ((((tells_toList.comp SidechainCreation.sidechain).append
    (tells_encodeI32.comp SidechainCreation.epochLength)).append
    (tells_encodeI64.comp SidechainCreation.value)).append
    (tells_toList.comp SidechainCreation.address)).append
    (tells_encodeBytes.comp SidechainCreation.customData)
  refine parts.imp ?_
  rintro ⟨_, _, _, _, _⟩ ⟨_, _, _, _, _⟩ h
  simp_all

/-- The encoding of a certifier lock tells the lock. -/
theorem CertifierLock.tells_encode : Tells CertifierLock.encode id := by
  have parts := (((tells_encodeI64.comp CertifierLock.value).append
    (tells_toList.comp CertifierLock.address)).append
    (tells_toList.comp CertifierLock.sidechain)).append
    (tells_encodeI64.comp CertifierLock.activeFromEpoch)
  refine parts.imp ?_
  rintro ⟨_, _, _, _⟩ ⟨_, _, _, _⟩ h
  simp_all

/-- The encoding of a forward transfer tells the transfer. -/
theorem ForwardTransfer.tells_encode : Tells ForwardTransfer.encode id := by
  have parts := ((tells_encodeI64.comp ForwardTransfer.value).append
    (tells_toList.comp ForwardTransfer.address)).append
    (tells_toList.comp ForwardTransfer.sidechain)
  refine parts.imp ?_
  rintro ⟨_, _, _⟩ ⟨_, _, _⟩ h
  simp_all

/-! ## Joinsplits -/

namespace SproutProof

/-- True for a proof of the newer scheme. -/
def isGroth : SproutProof → Bool
  | phgr _ => false
  | groth _ => true

/-- The scheme of a proof tells how many bytes it has. -/
theorem length_bytes (p : SproutProof) : p.bytes.length = if p.isGroth then 192 else 296 := by
  cases p with
  | phgr proof => exact proof.length_toList
  | groth proof => exact proof.length_toList

/-- Proofs of one scheme are told by their bytes. -/
theorem eq_of_bytes_eq {p q : SproutProof} (hscheme : p.isGroth = q.isGroth)
    (h : p.bytes = q.bytes) : p = q := by
  cases p <;> cases q
  case phgr.phgr => exact congrArg phgr (Bytes.ext h)
  case groth.groth => exact congrArg groth (Bytes.ext h)
  all_goals exact nomatch hscheme

end SproutProof

namespace JoinSplit

/-- True for a joinsplit with a proof of the newer scheme. -/
def isGroth (js : JoinSplit) : Bool := js.proof.isGroth

/-- The length of an encoded joinsplit whose proof is, or is not, of the newer scheme. -/
def width (groth : Bool) : Nat := if groth then 1698 else 1802

/-- The scheme of its proof tells how many bytes a joinsplit is encoded in. -/
theorem length_encode (js : JoinSplit) : js.encode.length = width js.isGroth := by
  simp only [encode, List.length_append, encodeI64, length_littleEndian, Bytes.length_toList,
    SproutProof.length_bytes, width, isGroth]
  by_cases h : js.proof.isGroth = true <;> simp [h]

/-- Among the joinsplits of one scheme the encoding tells all. -/
theorem tells_encode (groth : Bool) :
    Tells (fun js : {js : JoinSplit // js.isGroth = groth} => js.1.encode) Subtype.val := by
  have amount (part : JoinSplit → Amount) := tells_encodeI64.comp
    fun js : {js : JoinSplit // js.isGroth = groth} => part js.1
  have hash (part : JoinSplit → Hash256) := tells_toList.comp
    fun js : {js : JoinSplit // js.isGroth = groth} => part js.1
  have ciphertext (part : JoinSplit → Bytes 601) := tells_toList.comp
    fun js : {js : JoinSplit // js.isGroth = groth} => part js.1
  have proof : Tells (fun js : {js : JoinSplit // js.isGroth = groth} => js.1.proof.bytes)
      (fun js => js.1.proof) := by
    refine .of_width (if groth then 192 else 296) (fun ⟨js, hjs⟩ => ?_) fun ⟨a, ha⟩ ⟨b, hb⟩ h => ?_
    · exact hjs ▸ js.proof.length_bytes
    · exact SproutProof.eq_of_bytes_eq (ha.trans hb.symm) h
  have parts := (((((((((((((amount vpubOld).append (amount vpubNew)).append (hash anchor)).append
    (hash (·.nullifiers.1))).append (hash (·.nullifiers.2))).append
    (hash (·.commitments.1))).append (hash (·.commitments.2))).append
    (hash ephemeralKey)).append (hash randomSeed)).append
    (hash (·.macs.1))).append (hash (·.macs.2))).append proof).append
    (ciphertext (·.ciphertexts.1))).append (ciphertext (·.ciphertexts.2))
  refine parts.imp ?_
  rintro ⟨⟨_, _, _, ⟨_, _⟩, ⟨_, _⟩, _, _, ⟨_, _⟩, _, ⟨_, _⟩⟩, _⟩
    ⟨⟨_, _, _, ⟨_, _⟩, ⟨_, _⟩, _, _, ⟨_, _⟩, _, ⟨_, _⟩⟩, _⟩ h
  simp only [id, Prod.mk.injEq] at h
  simp only [h]

/-- Joinsplits of known schemes are taken apart by their encodings. -/
theorem eq_of_flatMap_encode {as bs : List JoinSplit} {rest rest' : List UInt8}
    (hschemes : as.map isGroth = bs.map isGroth)
    (hsize : (as.flatMap encode ++ rest).length < UInt64.size)
    (heq : as.flatMap encode ++ rest = bs.flatMap encode ++ rest') : as = bs ∧ rest = rest' := by
  induction as generalizing bs with
  | nil =>
    obtain rfl := List.map_eq_nil_iff.1 hschemes.symm
    exact ⟨rfl, heq⟩
  | cons a as ih =>
    obtain ⟨b, bs, rfl, hscheme, hschemes⟩ := List.map_eq_cons_iff.1 hschemes.symm
    simp only [List.flatMap_cons, List.append_assoc] at hsize heq
    obtain ⟨hjs, heq⟩ : a = b ∧ as.flatMap encode ++ rest = bs.flatMap encode ++ rest' :=
      @tells_encode b.isGroth ⟨a, hscheme.symm⟩ ⟨b, rfl⟩ (as.flatMap encode ++ rest)
        (bs.flatMap encode ++ rest') hsize heq
    have hsize : (as.flatMap encode ++ rest).length < UInt64.size := by
      rw [List.length_append] at hsize
      omega
    obtain ⟨hsame, hrest⟩ := ih hschemes.symm hsize heq
    exact ⟨congrArg₂ List.cons hjs hsame, hrest⟩

/-- Joinsplits of one scheme, encoded, are as long as their number says. -/
theorem length_flatMap_encode {groth : Bool} {jss : List JoinSplit}
    (h : ∀ js ∈ jss, js.isGroth = groth) :
    (jss.flatMap encode).length = jss.length * width groth := by
  induction jss with
  | nil => simp
  | cons js jss ih =>
    obtain ⟨hjs, hjss⟩ := List.forall_mem_cons.1 h
    rw [List.flatMap_cons, List.length_append, length_encode, hjs, ih hjss, List.length_cons,
      Nat.succ_mul, Nat.add_comm]

/-- As many joinsplits, those of either list of one scheme, are of the same scheme if their
encodings are of one length. -/
theorem schemes_eq_of_length_eq {as bs : List JoinSplit} (hcount : as.length = bs.length)
    (hlength : (as.flatMap encode).length = (bs.flatMap encode).length)
    (has : ∀ s ∈ as.map isGroth, ∀ s' ∈ as.map isGroth, s = s')
    (hbs : ∀ s ∈ bs.map isGroth, ∀ s' ∈ bs.map isGroth, s = s') :
    as.map isGroth = bs.map isGroth := by
  cases as with
  | nil => rw [List.length_eq_zero_iff.1 hcount.symm]
  | cons a as =>
    cases bs with
    | nil => exact nomatch hcount
    | cons b bs =>
      have ofA (js) (hjs : js ∈ a :: as) : js.isGroth = a.isGroth :=
        has _ (List.mem_map_of_mem hjs) _ List.mem_cons_self
      have ofB (js) (hjs : js ∈ b :: bs) : js.isGroth = b.isGroth :=
        hbs _ (List.mem_map_of_mem hjs) _ List.mem_cons_self
      rw [length_flatMap_encode ofA, length_flatMap_encode ofB, hcount] at hlength
      have hwidth := Nat.eq_of_mul_eq_mul_left (Nat.succ_pos _) hlength
      have hscheme : a.isGroth = b.isGroth := by
        revert hwidth
        cases a.isGroth <;> cases b.isGroth <;> simp [width]
      rw [List.map_congr_left ofA, List.map_congr_left ofB, List.map_const', List.map_const',
        hcount, hscheme]

end JoinSplit

/-! ## Transactions -/

namespace TxBody

/-- For each joinsplit that is encoded, whether its proof is of the newer scheme. -/
def schemes (t : TxBody) : List Bool :=
  if Version.isShielded t.version then t.joinSplits.map JoinSplit.isGroth else []

/-- The encoded joinsplits all use one proof scheme. -/
def OneScheme (t : TxBody) : Prop := ∀ s ∈ t.schemes, ∀ s' ∈ t.schemes, s = s'

/-- The proof schemes of the encoded joinsplits are the same one by one, or neither transaction
mixes schemes. -/
def SchemesAgree (a b : TxBody) : Prop := a.schemes = b.schemes ∨ a.OneScheme ∧ b.OneScheme

/-- Two transactions agree on every field that is encoded. Whether crosschain outputs and joinsplits
are depends on the version; key and signature are if there are joinsplits. -/
structure SameWritten (a b : TxBody) : Prop where
  version : a.version = b.version
  inputs : a.inputs = b.inputs
  outputs : a.outputs.map TxOut.written = b.outputs.map TxOut.written
  lockTime : a.lockTime = b.lockTime
  crosschain : a.version = Version.sidechain →
    a.creations = b.creations ∧ a.locks = b.locks ∧ a.forwards = b.forwards
  joinSplits : Version.isShielded a.version = true → a.joinSplits = b.joinSplits
  signature : Version.isShielded a.version = true → a.joinSplits ≠ [] →
    a.joinSplitKey = b.joinSplitKey ∧ a.joinSplitSig = b.joinSplitSig

variable {a b : TxBody}

/-- The part of the encoding that all versions share tells the version, the inputs and what is
written of the outputs. -/
theorem tells_head : Tells (fun t : TxBody => encodeI32 t.version ++
      encodeList TxIn.encode t.inputs ++ encodeList TxOut.encode t.outputs)
    (fun t => ((t.version, t.inputs), t.outputs.map TxOut.written)) := by
  have inputs := TxIn.tells_encode.encodeList fun i => by
    simp [TxIn.encode, encodeU32, littleEndian]
  have outputs := TxOut.tells_encode.encodeList fun o => by
    simp [TxOut.encode, encodeI64, littleEndian]
  have parts := ((tells_encodeI32.comp version).append (inputs.comp TxBody.inputs)).append
    (outputs.comp TxBody.outputs)
  refine parts.imp fun {a b} h => ?_
  simpa using h

/-- The part of the encoding that only sidechain versions have tells the creations, the locks and
the forward transfers. -/
theorem tells_crosschain : Tells (fun t : TxBody =>
      encodeList SidechainCreation.encode t.creations ++ encodeList CertifierLock.encode t.locks ++
        encodeList ForwardTransfer.encode t.forwards)
    (fun t => ((t.creations, t.locks), t.forwards)) := by
  have creations := SidechainCreation.tells_encode.encodeList fun o => by
    simp [SidechainCreation.encode, encodeI32, littleEndian]
  have locks := CertifierLock.tells_encode.encodeList fun o => by
    simp [CertifierLock.encode, encodeI64, littleEndian]
  have forwards := ForwardTransfer.tells_encode.encodeList fun o => by
    simp [ForwardTransfer.encode, encodeI64, littleEndian]
  have parts := ((creations.comp TxBody.creations).append (locks.comp TxBody.locks)).append
    (forwards.comp TxBody.forwards)
  refine parts.imp fun {a b} h => ?_
  simpa using h

/-- Of transactions of one version the crosschain section tells the crosschain outputs, if the
version has them. -/
theorem crosschain_of_append_eq (hversion : a.version = b.version) {rest rest' : List UInt8}
    (hsize : (a.encodeCrosschain ++ rest).length < UInt64.size)
    (h : a.encodeCrosschain ++ rest = b.encodeCrosschain ++ rest') :
    (a.version = Version.sidechain →
      a.creations = b.creations ∧ a.locks = b.locks ∧ a.forwards = b.forwards) ∧ rest = rest' := by
  unfold encodeCrosschain at h hsize
  rw [← hversion] at h
  by_cases hside : a.version = Version.sidechain
  · rw [if_pos hside] at hsize
    rw [if_pos hside, if_pos hside] at h
    obtain ⟨hlists, hrest⟩ := tells_crosschain hsize h
    simp only [Prod.mk.injEq, and_assoc] at hlists
    exact ⟨fun _ => hlists, hrest⟩
  · rw [if_neg hside, if_neg hside] at h
    exact ⟨fun hv => absurd hv hside, h⟩

/-- Of transactions of one shielded version the last section tells the joinsplits, their key and
their signature. -/
theorem joinSplits_of_encodeShielded_eq (hshielded : Version.isShielded a.version = true)
    (hversion : a.version = b.version) (hschemes : SchemesAgree a b)
    (hsize : a.encodeShielded.length < UInt64.size) (h : a.encodeShielded = b.encodeShielded) :
    a.joinSplits = b.joinSplits ∧ (a.joinSplits ≠ [] →
      a.joinSplitKey = b.joinSplitKey ∧ a.joinSplitSig = b.joinSplitSig) := by
  have hshielded' := hversion ▸ hshielded
  have hlength := congrArg List.length h
  simp only [encodeShielded, if_pos hshielded, if_pos hshielded', encodeList, List.append_assoc,
    List.length_append] at h hsize hlength
  have encoded (js : JoinSplit) : js.encode ≠ [] := by
    simp [JoinSplit.encode, encodeI64, littleEndian]
  have ha := length_le_length_flatMap encoded a.joinSplits
  have hb := length_le_length_flatMap encoded b.joinSplits
  obtain ⟨hcount, h⟩ := encodeCount_append_inj (by omega) (by omega) h
  by_cases hnone : a.joinSplits = []
  · rw [hnone] at hcount
    exact ⟨hnone.trans (List.length_eq_zero_iff.1 hcount.symm).symm, absurd hnone⟩
  have hsome : a.joinSplits.isEmpty = false := List.isEmpty_eq_false_iff.2 hnone
  have hsome' : b.joinSplits.isEmpty = false := by
    rw [List.isEmpty_eq_false_iff, ← List.length_pos_iff, ← hcount]
    exact List.length_pos_iff.2 hnone
  simp only [hsome, hsome', Bool.false_eq_true, if_false, List.length_append,
    Bytes.length_toList] at h hsize hlength
  have agree : a.joinSplits.map JoinSplit.isGroth = b.joinSplits.map JoinSplit.isGroth := by
    simp only [SchemesAgree, OneScheme, schemes, if_pos hshielded, if_pos hshielded'] at hschemes
    rcases hschemes with same | ⟨one, one'⟩
    · exact same
    · -- key and signature are as long in both, so the joinsplits are too
      exact JoinSplit.schemes_eq_of_length_eq hcount (by rw [hcount] at hlength; omega) one one'
  obtain ⟨hsame, hsigned⟩ := JoinSplit.eq_of_flatMap_encode agree
    (by simp only [List.length_append, Bytes.length_toList]; omega) h
  obtain ⟨hkey, hsig⟩ := List.append_inj hsigned
    (a.joinSplitKey.length_toList.trans b.joinSplitKey.length_toList.symm)
  exact ⟨hsame, fun _ => ⟨Bytes.ext hkey, Bytes.ext hsig⟩⟩

/-- What the encoding tells. -/
theorem sameWritten_of_encode_eq (hschemes : SchemesAgree a b)
    (hsize : a.encode.length < UInt64.size) (h : a.encode = b.encode) : SameWritten a b := by
  have sections (t : TxBody) : t.encode =
      (encodeI32 t.version ++ encodeList TxIn.encode t.inputs ++
        encodeList TxOut.encode t.outputs) ++
      (t.encodeCrosschain ++ (encodeU32 t.lockTime ++ t.encodeShielded)) := by
    simp only [encode, List.append_assoc]
  rw [sections a] at hsize
  rw [sections a, sections b] at h
  obtain ⟨hhead, h⟩ := tells_head hsize h
  simp only [Prod.mk.injEq] at hhead
  obtain ⟨⟨hversion, hinputs⟩, houtputs⟩ := hhead
  simp only [List.length_append] at hsize
  have fits : (a.encodeCrosschain ++ (encodeU32 a.lockTime ++ a.encodeShielded)).length <
      UInt64.size := by
    simp only [List.length_append]
    omega
  obtain ⟨hcrosschain, h⟩ := crosschain_of_append_eq hversion fits h
  obtain ⟨hlock, h⟩ := tells_encodeU32 (by rw [List.length_append]; omega) h
  have last (hshielded) := joinSplits_of_encodeShielded_eq hshielded hversion hschemes (by omega) h
  exact ⟨hversion, hinputs, houtputs, hlock, hcrosschain, fun hv => (last hv).1,
    fun hv => (last hv).2⟩

/-- Outputs that agree in what is encoded of them are encoded alike. -/
theorem encodeList_outputs_congr {as bs : List TxOut}
    (h : as.map TxOut.written = bs.map TxOut.written) :
    encodeList TxOut.encode as = encodeList TxOut.encode bs := by
  have through (os : List TxOut) : encodeList TxOut.encode os =
      encodeList (fun o : Amount × Script => encodeI64 o.1 ++ encodeBytes o.2.bytes)
        (os.map TxOut.written) := by
    simp only [encodeList, List.length_map, List.flatMap_map]
    rfl
  rw [through, through, h]

/-- Transactions that agree on every encoded field have one encoding. -/
theorem SameWritten.encode_eq (h : SameWritten a b) : a.encode = b.encode := by
  have crosschain : a.encodeCrosschain = b.encodeCrosschain := by
    unfold encodeCrosschain
    rw [← h.version]
    split
    next hside =>
      obtain ⟨hcreations, hlocks, hforwards⟩ := h.crosschain hside
      rw [hcreations, hlocks, hforwards]
    next => rfl
  have shielded : a.encodeShielded = b.encodeShielded := by
    unfold encodeShielded
    rw [← h.version]
    split
    next hshielded =>
      have signature := h.signature hshielded
      rw [← h.joinSplits hshielded]
      split
      next => rfl
      next hsome =>
        obtain ⟨hkey, hsig⟩ := signature (by simpa using hsome)
        rw [hkey, hsig]
    next => rfl
  unfold encode
  rw [h.version, h.inputs, encodeList_outputs_congr h.outputs, h.lockTime, crosschain, shielded]

end TxBody

/-- Two transactions of which neither mixes proof schemes have one encoding exactly if they agree
on every field that is encoded: version, inputs, values and scripts of the outputs, lock time, in
the sidechain version the crosschain outputs, in the shielded versions the joinsplits with their
proofs, and, if there are joinsplits, their key and signature. An encoding of 2^64 bytes or more,
whose counts would not fit eight bytes and which no memory holds, is left aside. -/
theorem Transaction.encode_unambiguous {a b : Transaction} (ha : a.body.OneScheme)
    (hb : b.body.OneScheme) (hsize : a.size < UInt64.size) :
    a.encode = b.encode ↔ a.body.SameWritten b.body :=
  ⟨TxBody.sameWritten_of_encode_eq (.inr ⟨ha, hb⟩) hsize, TxBody.SameWritten.encode_eq⟩

/-- A sidechain transaction with an output, a forward transfer and a joinsplit. Nothing encoded says
where the output comes from. -/
def TxBody.forwarding (fromBackwardTransfer : Bool) : TxBody :=
  { TxBody.blank with
    version := Version.sidechain
    outputs := [⟨600, ⟨[0x51]⟩, fromBackwardTransfer⟩]
    forwards := [⟨Bytes.zero, 5, Bytes.zero⟩]
    joinSplits := [JoinSplit.blank true] }

/-- Transactions that differ in where an output comes from agree on every field that is encoded. -/
theorem Transaction.encode_unambiguous_forwarding :
    ∃ a b : Transaction, a.body ≠ b.body ∧ a.body.OneScheme ∧ b.body.OneScheme ∧
      a.size < UInt64.size ∧ a.encode = b.encode ∧ a.body.SameWritten b.body := by
  have one (flag : Bool) : (TxBody.forwarding flag).freeze.body.OneScheme := by
    simp [TxBody.OneScheme, TxBody.schemes, TxBody.forwarding, TxBody.freeze]
  have size : (TxBody.forwarding false).freeze.size < UInt64.size := by decide +kernel
  have same : (TxBody.forwarding false).freeze.encode = (TxBody.forwarding true).freeze.encode := by
    decide +kernel
  exact ⟨_, _, by decide, one false, one true, size, same,
    (encode_unambiguous (one false) (one true) size).1 same⟩

end ShieldedLedger
