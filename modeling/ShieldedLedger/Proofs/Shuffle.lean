import Mathlib.Data.Fintype.EquivFin
import Mathlib.Logic.Equiv.Fin.Basic
import Mathlib.GroupTheory.Perm.Basic
import ShieldedLedger.Record.ShieldedProof
import ShieldedLedger.Simulation.Scripted

/-!
# Shuffles are faithful and unbiased

A shuffle of `n` items asks for the bounds `n`, …, `2` (`Shuffle.bounds`) and exchanges two
positions for each answer. The exchanges compose to a permutation of the positions
(`Shuffle.permutation`) that depends on the answers alone and is the same for the items and for the
map (`mappedShuffle_eq`).

No permutation comes about twice (`Shuffle.existsUnique_answers`): the first answer is where the
permutation sends the last position, as the later exchanges leave that position alone, and without
the first exchange it is a permutation of one position less.
-/

namespace ShieldedLedger

namespace Shuffle

variable {α σ : Type}

/-- The bounds that a shuffle of `n` items asks for: `n`, …, `2`. -/
def bounds (n : Nat) : List Nat := (List.range' 2 (n - 1)).reverse

/-- The bounds go down by one, from the number of items. -/
theorem bounds_add_two (n : Nat) : bounds (n + 2) = (n + 2) :: bounds (n + 1) := by
  simp [bounds, List.range'_concat, Nat.add_comm]

/-- They end with 2, so that there are as many for one item as for none. -/
theorem bounds_pred_add_one (n : Nat) : bounds (n - 1 + 1) = bounds n := rfl

/-- Asks for each of the bounds in turn: the answers, and the state they leave. -/
def drawAll (draw : Draw σ) : List Nat → σ → List Nat × σ
  | [], s => ([], s)
  | bound :: bounds, s =>
    let (j, s) := draw bound s
    let (answers, s) := drawAll draw bounds s
    (j :: answers, s)

/-- The generator `draw`, keeping the bounds it was asked for. -/
def recording (draw : Draw σ) : Draw (σ × List Nat) := fun bound (s, asked) =>
  let (j, s) := draw bound s
  (j, s, asked ++ [bound])

/-- Recording the bounds that are asked for leaves the answers as they are. -/
theorem drawAll_recording (draw : Draw σ) (bounds : List Nat) (s : σ) (asked : List Nat) :
    drawAll (recording draw) bounds (s, asked) =
      ((drawAll draw bounds s).1, (drawAll draw bounds s).2, asked ++ bounds) := by
  induction bounds generalizing s asked with
  | nil => simp [drawAll]
  | cons bound bounds ih => simp [drawAll, recording, ih]

/-- There is one answer for each bound that a shuffle of `n` items asks for, and it is below it. -/
def InBounds (n : Nat) (answers : List Nat) : Prop := List.Forall₂ (· < ·) answers (bounds n)

instance (n : Nat) (answers : List Nat) : Decidable (InBounds n answers) :=
  inferInstanceAs (Decidable (List.Forall₂ _ _ _))

/-- For one item nothing is drawn. -/
theorem InBounds.eq_nil {answers : List Nat} (h : InBounds 1 answers) : answers = [] :=
  List.forall₂_nil_right_iff.1 h

/-- One draw less is made than there are items. -/
theorem InBounds.length {n : Nat} {answers : List Nat} (h : InBounds (n + 1) answers) :
    answers.length = n := by
  simpa [bounds] using List.Forall₂.length_eq h

/-- The first answer is below its own bound, and the others are within theirs. -/
theorem inBounds_cons {n j : Nat} {rest : List Nat} :
    InBounds (n + 2) (j :: rest) ↔ j < n + 2 ∧ InBounds (n + 1) rest := by
  rw [InBounds, bounds_add_two, List.forall₂_cons]
  rfl

/-- Answers for two items or more can be taken apart. -/
theorem InBounds.exists_cons {n : Nat} {answers : List Nat} (h : InBounds (n + 2) answers) :
    ∃ j rest, answers = j :: rest ∧ j < n + 2 ∧ InBounds (n + 1) rest := by
  cases answers with
  | nil => simp [InBounds, bounds_add_two] at h
  | cons j rest => exact ⟨j, rest, rfl, inBounds_cons.1 h⟩

/-- Where the item comes from that the exchanges for some answers leave at a position. -/
def permutation : List Nat → Equiv.Perm Nat
  | [] => 1
  | j :: rest => Equiv.swap (rest.length + 1) j * permutation rest

/-- The exchanges leave all positions from the first bound on alone. -/
theorem permutation_of_le {n k : Nat} {answers : List Nat} (h : InBounds n answers) (hk : n ≤ k) :
    permutation answers k = k := by
  induction n using Nat.twoStepInduction generalizing answers with
  | zero => rw [InBounds.eq_nil h]; rfl
  | one => rw [h.eq_nil]; rfl
  | more n _ ih =>
    obtain ⟨j, rest, rfl, hj, hrest⟩ := h.exists_cons
    rw [permutation, Equiv.Perm.mul_apply, ih hrest (by omega), hrest.length]
    exact Equiv.swap_apply_of_ne_of_ne (by omega) (by omega)

/-! ## One permutation for each list of answers -/

/-- A permutation of the first `n` positions comes about from just one list of answers. -/
theorem existsUnique_answers (n : Nat) (π : Equiv.Perm Nat) (hπ : ∀ k, n ≤ k → π k = k) :
    ∃! answers, InBounds n answers ∧ permutation answers = π := by
  induction n using Nat.twoStepInduction generalizing π with
  | zero =>
    have hone : π = 1 := Equiv.ext fun k => hπ k (Nat.zero_le k)
    exact ⟨[], ⟨.nil, hone.symm⟩, fun answers h => InBounds.eq_nil h.1⟩
  | one =>
    -- what is at the one position has nowhere else to come from
    have hzero : π 0 = 0 := by
      by_contra hne
      have := π.injective (hπ (π 0) (by omega))
      omega
    have hone : π = 1 := by
      ext k
      cases k with
      | zero => exact hzero
      | succ k => exact hπ _ (by omega)
    exact ⟨[], ⟨.nil, hone.symm⟩, fun answers h => h.1.eq_nil⟩
  | more n _ ih =>
    have hlast : π (n + 1) < n + 2 := by
      by_contra hlt
      have := π.injective (hπ _ (Nat.not_lt.1 hlt))
      omega
    have hrest : ∀ k, n + 1 ≤ k → (Equiv.swap (n + 1) (π (n + 1)) * π) k = k := by
      intro k hk
      rw [Equiv.Perm.mul_apply]
      rcases hk.eq_or_lt with rfl | hk
      · exact Equiv.swap_apply_right _ _
      · rw [hπ k hk]
        exact Equiv.swap_apply_of_ne_of_ne (by omega) (by omega)
    obtain ⟨rest, ⟨inBounds, hperm⟩, unique⟩ := ih _ hrest
    refine ⟨π (n + 1) :: rest, ⟨inBounds_cons.2 ⟨hlast, inBounds⟩, ?_⟩, ?_⟩
    · rw [permutation, inBounds.length, hperm, ← mul_assoc, Equiv.swap_mul_self, one_mul]
    · rintro answers ⟨h, rfl⟩
      obtain ⟨j, rest', rfl, -, inBounds'⟩ := h.exists_cons
      have hj : permutation (j :: rest') (n + 1) = j := by
        rw [permutation, Equiv.Perm.mul_apply, permutation_of_le inBounds' le_rfl,
          inBounds'.length]
        exact Equiv.swap_apply_left _ _
      rw [hj] at unique
      rw [hj, unique rest' ⟨inBounds', ?_⟩]
      rw [permutation, inBounds'.length, ← mul_assoc, Equiv.swap_mul_self, one_mul]

/-- The answers to a shuffle of `n` items, one for one with the permutations of `n` positions. -/
noncomputable def arrangement (n : Nat) :
    {answers // InBounds n answers} ≃ Equiv.Perm (Fin n) :=
  (Equiv.ofBijective
    (fun answers : {answers // InBounds n answers} =>
      (⟨permutation answers, fun _ hk => permutation_of_le answers.2 (Nat.not_lt.1 hk)⟩ :
        {π : Equiv.Perm Nat // ∀ k, ¬ k < n → π k = k}))
    ⟨fun answers answers' h => Subtype.ext <|
        (existsUnique_answers n (permutation answers) fun _ => permutation_of_le answers.2).unique
          ⟨answers.2, rfl⟩ ⟨answers'.2, (Subtype.ext_iff.1 h).symm⟩,
      fun π => by
        obtain ⟨answers, ⟨inBounds, hperm⟩, -⟩ :=
          existsUnique_answers n π.1 fun k hk => π.2 k (Nat.not_lt.2 hk)
        exact ⟨⟨answers, inBounds⟩, Subtype.ext hperm⟩⟩).trans <|
  (Equiv.Perm.subtypeEquivSubtypePerm (· < n)).symm.trans
    (Equiv.permCongr Fin.equivSubtype.symm)

/-- The arrangement of the answers is their permutation. -/
theorem arrangement_apply {n : Nat} (answers : {answers // InBounds n answers}) (k : Fin n) :
    (arrangement n answers k).val = permutation answers k := rfl

/-! ## What the loop does -/

/-- An exchange moves what is at one place to the other. -/
theorem getElem?_exchange {items : Array α} {i j : Nat} (hi : i < items.size) (hj : j < items.size)
    (k : Nat) : (exchange items i j)[k]? = items[Equiv.swap i j k]? := by
  rw [exchange, Array.swapIfInBounds_def, dif_pos hi, dif_pos hj, Array.getElem?_swap,
    Equiv.swap_apply_def]
  grind

/-- An exchange keeps the number of items. -/
theorem size_exchange (items : Array α) (i j : Nat) : (exchange items i j).size = items.size :=
  Array.size_swapIfInBounds

/-- While the answers stay within their bounds, the loop asks for each bound and carries out the
exchanges. -/
theorem settle_of_inBounds {draw : Draw σ} {last : Nat} {items : Array α} {s : σ}
    (hlast : last = 0 ∨ last < items.size)
    (answered : InBounds (last + 1) (drawAll draw (bounds (last + 1)) s).1) :
    ∃ settled, settle draw last items s = (.ok settled, (drawAll draw (bounds (last + 1)) s).2) ∧
      ∀ k, settled[k]? = items[permutation (drawAll draw (bounds (last + 1)) s).1 k]? := by
  induction last generalizing items s with
  | zero => exact ⟨items, rfl, fun _ => rfl⟩
  | succ last ih =>
    rw [bounds_add_two, drawAll] at answered ⊢
    obtain ⟨hj, hrest⟩ := inBounds_cons.1 answered
    have hlast : last + 1 < items.size := hlast.resolve_left (by omega)
    have shorter : last < (exchange items (last + 1) (draw (last + 2) s).1).size := by
      rw [size_exchange]
      omega
    obtain ⟨settled, heq, hplaces⟩ := ih (.inr shorter) hrest
    refine ⟨settled, ?_, fun k => ?_⟩
    · simp only [settle, if_pos (Nat.lt_succ_iff.1 hj), heq]
    · rw [hplaces, getElem?_exchange hlast (by omega), permutation, hrest.length]
      rfl

/-- What is read through the permutation is the list in the new arrangement. -/
theorem eq_ofFn_of_getElem? {n : Nat} {items shuffled : List α} (hitems : items.length = n)
    (answers : {answers // InBounds n answers})
    (h : ∀ k : Nat, shuffled[k]? = items[permutation answers k]?) :
    shuffled = List.ofFn fun k => items[arrangement n answers k] := by
  refine List.ext_getElem? fun k => ?_
  rw [h, List.getElem?_ofFn]
  split
  next hk =>
    rw [← arrangement_apply answers ⟨k, hk⟩]
    exact List.getElem?_eq_getElem _
  next hk =>
    rw [permutation_of_le answers.2 (Nat.not_lt.1 hk)]
    exact List.getElem?_eq_none (by omega)

end Shuffle

open Shuffle

section
variable {α σ : Type} {draw : Draw σ} {s : σ} {n : Nat} {items : List α} {map : List Nat}

/-- While the answers stay within their bounds, items and map are rearranged alike. -/
theorem mappedShuffle_eq (hitems : items.length = n) (hmap : map.length = n)
    (answered : InBounds n (drawAll draw (bounds n) s).1) :
    let π := arrangement n ⟨_, answered⟩
    mappedShuffle draw items map s =
      (.ok (List.ofFn fun k => items[π k], List.ofFn fun k => map[π k]),
        (drawAll draw (bounds n) s).2) := by
  intro π
  have size : (items.zip map).toArray.size = n := by simp [hitems, hmap]
  have within : n - 1 = 0 ∨ n - 1 < (items.zip map).toArray.size := by omega
  obtain ⟨settled, heq, hplaces⟩ := settle_of_inBounds within answered
  rw [bounds_pred_add_one] at heq hplaces
  rw [show n - 1 = items.length - 1 by omega] at heq
  have hpairs (k : Nat) : settled[k]? =
      (items.zip map)[permutation (drawAll draw (bounds n) s).1 k]? := by
    rw [hplaces, List.getElem?_toArray]
  have hfst : settled.toList.map (·.1) = List.ofFn fun k => items[π k] :=
    eq_ofFn_of_getElem? hitems _ fun k => by
      rw [List.getElem?_map, Array.getElem?_toList, hpairs, ← List.getElem?_map,
        List.map_fst_zip (by omega)]
  have hsnd : settled.toList.map (·.2) = List.ofFn fun k => map[π k] :=
    eq_ofFn_of_getElem? hmap _ fun k => by
      rw [List.getElem?_map, Array.getElem?_toList, hpairs, ← List.getElem?_map,
        List.map_snd_zip (by omega)]
  rw [mappedShuffle, if_pos (by omega), heq]
  simp only [Except.map, hfst, hsnd]

/-- Starting from the identity map, each item is found where the map says it stood, and the map
names every position once. -/
theorem mappedShuffle_range (hitems : items.length = n)
    (answered : InBounds n (drawAll draw (bounds n) s).1) :
    let places := List.ofFn fun k => (arrangement n ⟨_, answered⟩ k).val
    ∃ shuffled, mappedShuffle draw items (List.range n) s =
        (.ok (shuffled, places), (drawAll draw (bounds n) s).2) ∧
      shuffled.map some = places.map (items[·]?) ∧ places.Perm (List.range n) := by
  refine ⟨List.ofFn fun k => items[arrangement n ⟨_, answered⟩ k], ?_, ?_, ?_⟩
  · rw [mappedShuffle_eq hitems List.length_range answered]
    simp only [Fin.getElem_fin, List.getElem_range]
  · simp [List.map_ofFn, Function.comp_def, hitems]
  · rw [← List.map_coe_finRange_eq_range, List.ofFn_eq_map, ← Function.comp_def, ← List.map_map]
    exact (Equiv.Perm.map_finRange_perm _).map _

end

/-- The notes of a proof request are shuffled so that the maps beside the proof tell where each of
them stood, while the answers stay within their bounds: those for the consumed notes come first. -/
theorem ProofRequest.randomized_recovers {ι ω ρ σ : Type} (prove : ProofRequest ι ω → ρ)
    (draw : Draw σ) (request : ProofRequest ι ω) (s : σ)
    (inputsAnswered : InBounds request.inputs.length
      (drawAll draw (bounds request.inputs.length) s).1)
    (outputsAnswered : InBounds request.outputs.length
      (drawAll draw (bounds request.outputs.length)
        (drawAll draw (bounds request.inputs.length) s).2).1) :
    ∃ inputs outputs inputMap outputMap,
      (request.randomized prove draw s).1 =
        .ok ⟨prove { request with inputs, outputs }, inputMap, outputMap⟩ ∧
      inputs.map some = inputMap.map (request.inputs[·]?) ∧
      inputMap.Perm (List.range request.inputs.length) ∧
      outputs.map some = outputMap.map (request.outputs[·]?) ∧
      outputMap.Perm (List.range request.outputs.length) := by
  obtain ⟨inputs, hinputs, fromInputs, inputPlaces⟩ := mappedShuffle_range rfl inputsAnswered
  obtain ⟨outputs, houtputs, fromOutputs, outputPlaces⟩ := mappedShuffle_range rfl outputsAnswered
  refine ⟨inputs, outputs, _, _, ?_, fromInputs, inputPlaces, fromOutputs, outputPlaces⟩
  simp only [ProofRequest.randomized, hinputs, houtputs]

/-- A shuffle of `n` items is faithful and without bias. The lists of answers within the bounds `n`,
…, `2` are one for one with the permutations of `n` positions, so that every generator that gives
such answers has items and map both rearranged by the permutation of its answers, and is asked for
each of the bounds once, in this order. Starting from the identity map, the map tells the
permutation, and each item is found where the map says it stood. -/
theorem mappedShuffle_faithful_unbiased (n : Nat) :
    ∃ arrangement : {answers // InBounds n answers} ≃ Equiv.Perm (Fin n),
      ∀ {α σ : Type} (draw : Draw σ) (s : σ)
        (answered : InBounds n (drawAll draw (bounds n) s).1)
        (items : List α) (map : List Nat) (hitems : items.length = n) (hmap : map.length = n),
      let π := arrangement ⟨_, answered⟩
      let places := List.ofFn fun k => (π k).val
      mappedShuffle draw items map s =
          (.ok (List.ofFn fun k => items[π k], List.ofFn fun k => map[π k]),
            (drawAll draw (bounds n) s).2) ∧
        (mappedShuffle (recording draw) items map (s, [])).2 =
          ((drawAll draw (bounds n) s).2, bounds n) ∧
        ∃ shuffled, (mappedShuffle draw items (List.range n) s).1 = .ok (shuffled, places) ∧
          shuffled.map some = places.map (items[·]?) ∧ places.Perm (List.range n) := by
  refine ⟨Shuffle.arrangement n, fun draw s answered items map hitems hmap =>
    ⟨mappedShuffle_eq hitems hmap answered, ?_, ?_⟩⟩
  · have recorded := drawAll_recording draw (bounds n) s []
    have answered' : InBounds n (drawAll (recording draw) (bounds n) (s, [])).1 := by
      rwa [recorded]
    calc (mappedShuffle (recording draw) items map (s, [])).2
        = (drawAll (recording draw) (bounds n) (s, [])).2 := by
          rw [mappedShuffle_eq hitems hmap answered']
      _ = ((drawAll draw (bounds n) s).2, bounds n) := by rw [recorded]; rfl
  · obtain ⟨shuffled, heq, hshuffled, hplaces⟩ := mappedShuffle_range hitems answered
    exact ⟨shuffled, congrArg Prod.fst heq, hshuffled, hplaces⟩

/-- Three items shuffled with the answers 0 and 1: the first and the last are exchanged. -/
theorem mappedShuffle_faithful_unbiased_three :
    let draw := Simulation.scriptedDraw
    let s : List Nat × List Nat := ([0, 1], [])
    InBounds 3 (drawAll draw (bounds 3) s).1 ∧
      mappedShuffle draw [10, 20, 30] [0, 1, 2] s = (.ok ([30, 20, 10], [2, 1, 0]), ([], [3, 2])) ∧
      ∃ π : Equiv.Perm (Fin 3), List.ofFn (fun k => (π k).val) = [2, 1, 0] ∧
        (mappedShuffle draw [10, 20, 30] [0, 1, 2] s).1 =
          .ok (List.ofFn fun k => [10, 20, 30][π k], List.ofFn fun k => [0, 1, 2][π k]) := by
  intro draw s
  have answered : InBounds 3 (drawAll draw (bounds 3) s).1 := by decide
  have computed : mappedShuffle draw [10, 20, 30] [0, 1, 2] s =
      (.ok ([30, 20, 10], [2, 1, 0]), ([], [3, 2])) := by decide
  obtain ⟨arrangement, shuffles⟩ := mappedShuffle_faithful_unbiased 3
  obtain ⟨heq, -, shuffled, hidentity, -⟩ :=
    shuffles draw s answered [10, 20, 30] [0, 1, 2] rfl rfl
  have places : List.ofFn (fun k => (arrangement ⟨_, answered⟩ k).val) = [2, 1, 0] := by
    have computed' := congrArg Prod.fst computed
    rw [show [0, 1, 2] = List.range 3 from rfl, hidentity] at computed'
    exact (Prod.ext_iff.1 (Except.ok.inj computed')).2
  exact ⟨answered, computed, _, places, congrArg Prod.fst heq⟩

end ShieldedLedger
