import ShieldedLedger.Proofs.CommitmentTree.Stored
import ShieldedLedger.Proofs.Encoding.Exact

/-!
# The shapes of trees that are read

A tree is read from its encoding and from nothing else, as long as it has no more levels than a tree
may have (`CommitmentTree.read_eq_ok_iff`). Its shape is not checked. It is that of a tree of leaves
exactly if it has a left leaf once it has anything, and a subtree on its highest level
(`CommitmentTree.WellShaped`): appending keeps this (`CommitmentTree.Holds.wellShaped`), and there
is a tree of as many leaves, whose shape can be no other, as the levels count like the digits of a
number (`CommitmentTree.WellShaped.sameShape`).
-/

namespace ShieldedLedger
namespace CommitmentTree

variable {α : Type} {h : NodeHash α}

/-! ## Shapes -/

/-- The same parts are there, whatever nodes they are. -/
structure SameShape (t t' : CommitmentTree α) : Prop where
  left : t.left.isSome = t'.left.isSome
  right : t.right.isSome = t'.right.isSome
  parents : t.parents.map Option.isSome = t'.parents.map Option.isSome

/-- The shape of a tree that was appended to leaf by leaf. -/
structure WellShaped (t : CommitmentTree α) : Prop where
  /-- A right leaf has a left one. -/
  right : t.right.isSome → t.left.isSome
  /-- Levels above the leaves are there only if there is a left leaf. -/
  parents : t.parents ≠ [] → t.left.isSome
  /-- The highest level is there because a subtree was carried to it. -/
  last : t.parents.getLast? ≠ some none

/-- Being well shaped is a matter of the shape. -/
theorem SameShape.wellShaped {t t' : CommitmentTree α} (same : t.SameShape t') (ht : t.WellShaped) :
    t'.WellShaped where
  right hright := same.left ▸ ht.right (same.right ▸ hright)
  parents hparents := by
    refine same.left ▸ ht.parents fun hnil => hparents ?_
    have := same.parents
    rw [hnil] at this
    exact List.map_eq_nil_iff.1 this.symm
  last hlast := by
    have present : (t.parents.map Option.isSome).getLast? = some false := by
      rw [same.parents, List.getLast?_map, hlast]
      rfl
    rw [List.getLast?_map, Option.map_eq_some_iff] at present
    obtain ⟨_ | _, hnone, hsome⟩ := present
    · exact ht.last hnone
    · cases hsome

/-! ## Appending -/

/-- A subtree that is carried up is on some level. -/
theorem carry_ne_nil (node : α) (parents : List (Option α)) : carry h node parents ≠ [] := by
  match parents with
  | [] | none :: _ | some _ :: _ => exact List.cons_ne_nil _ _

/-- What is above the lowest level ends as all of it does. -/
theorem getLast?_above {parent : Option α} {rest : List (Option α)}
    (hlast : (parent :: rest).getLast? ≠ some none) : rest.getLast? ≠ some none := by
  cases rest with
  | nil => nofun
  | cons _ _ => rwa [List.getLast?_cons_cons] at hlast

/-- Carrying up leaves a subtree on the highest level. -/
theorem getLast?_carry {parents : List (Option α)} (node : α)
    (hlast : parents.getLast? ≠ some none) : (carry h node parents).getLast? ≠ some none := by
  induction parents generalizing node with
  | nil => simp [carry]
  | cons parent rest ih =>
    cases parent with
    | none =>
      cases rest with
      | nil => exact absurd rfl hlast
      | cons _ _ => rwa [carry, List.getLast?_cons_cons, ← List.getLast?_cons_cons (a := none)]
    | some waiting =>
      obtain ⟨first, others, hcarry⟩ :=
        List.exists_cons_of_ne_nil (carry_ne_nil (h := h) (h.combine waiting node) rest)
      have carried := ih (h.combine waiting node) (getLast?_above hlast)
      rw [hcarry] at carried
      rwa [carry, hcarry, List.getLast?_cons_cons]

/-- Appending a leaf keeps a tree well shaped. -/
theorem WellShaped.grow {t : CommitmentTree α} (ht : t.WellShaped) (leaf : α) :
    (t.grow h leaf).WellShaped := by
  have left := isSome_left_grow (h := h) t leaf
  refine ⟨fun _ => left, fun _ => left, ?_⟩
  unfold CommitmentTree.grow
  split
  · exact ht.last
  · exact ht.last
  · exact getLast?_carry _ ht.last

/-- A tree of leaves is well shaped. -/
theorem Holds.wellShaped {t : CommitmentTree α} {leaves : List α} (ht : Holds h t leaves) :
    t.WellShaped := by
  induction ht with
  | empty => exact ⟨nofun, fun hne => absurd rfl hne, nofun⟩
  | append _ ha ih =>
    obtain ⟨-, rfl⟩ := append?_eq_some_iff.1 ha
    exact ih.grow _

/-! ## As many leaves, the same shape -/

/-- Levels with a subtree on the highest one have a leaf at least. -/
theorem parentLeaves_pos : ∀ {parents : List (Option α)}, parents ≠ [] →
    parents.getLast? ≠ some none → 0 < parentLeaves 1 parents
  | [], hne, _ => absurd rfl hne
  | some _ :: rest, _, _ => by simp only [parentLeaves]; omega
  | [none], _, hlast => absurd rfl hlast
  | none :: parent :: rest, _, hlast => by
    rw [List.getLast?_cons_cons] at hlast
    have above := parentLeaves_pos (List.cons_ne_nil parent rest) hlast
    rw [parentLeaves, parentLeaves_two_mul]
    omega

/-- Levels that hold as many leaves are there in the same places. -/
theorem map_isSome_eq_of_parentLeaves_eq : ∀ {parents parents' : List (Option α)},
    parents.getLast? ≠ some none → parents'.getLast? ≠ some none →
      parentLeaves 1 parents = parentLeaves 1 parents' →
        parents.map Option.isSome = parents'.map Option.isSome
  | [], [], _, _, _ => rfl
  | [], _ :: _, _, hlast', heq => by
    have := parentLeaves_pos (List.cons_ne_nil _ _) hlast'
    rw [← heq] at this
    exact absurd this (Nat.lt_irrefl 0)
  | _ :: _, [], hlast, _, heq => by
    have := parentLeaves_pos (List.cons_ne_nil _ _) hlast
    rw [heq] at this
    exact absurd this (Nat.lt_irrefl 0)
  | parent :: rest, parent' :: rest', hlast, hlast', heq => by
    have ih := map_isSome_eq_of_parentLeaves_eq (getLast?_above hlast) (getLast?_above hlast')
    have twice := parentLeaves_two_mul rest 1
    have twice' := parentLeaves_two_mul rest' 1
    -- the lowest level tells whether the number of leaves is odd
    cases parent <;> cases parent' <;> simp only [parentLeaves, twice, twice'] at heq <;>
      first | omega | exact congrArg₂ List.cons rfl (ih (by omega))

/-- A well shaped tree knows the number of its leaves: none if it has no left leaf, or else those
below the lowest level and an even number above. -/
theorem WellShaped.size? {t : CommitmentTree α} (ht : t.WellShaped) :
    t.size? = some (if t.left.isSome then 1 + t.right.isSome.toNat + 2 * parentLeaves 1 t.parents
      else 0) := by
  have counted : parentLeaves 2 t.parents = 2 * parentLeaves 1 t.parents :=
    parentLeaves_two_mul t.parents 1
  unfold CommitmentTree.size?
  cases hleft : t.left with
  | none =>
    have right : t.right = none := by simpa [hleft] using ht.right
    have parents : t.parents = [] := by simpa [hleft] using ht.parents
    rw [right, parents]
    rfl
  | some _ =>
    rw [counted]
    cases t.right <;> rfl

/-- Well shaped trees of as many leaves have the same shape. -/
theorem WellShaped.sameShape {t t' : CommitmentTree α} (ht : t.WellShaped) (ht' : t'.WellShaped)
    (hsize : t.size? = t'.size?) : t.SameShape t' := by
  rw [ht.size?, ht'.size?, Option.some.injEq] at hsize
  by_cases hleft : t.left.isSome <;> by_cases hleft' : t'.left.isSome <;>
    simp only [hleft, hleft', Bool.false_eq_true, ↓reduceIte] at hsize
  · have toNat_le := t.right.isSome.toNat_le
    have toNat_le' := t'.right.isSome.toNat_le
    have right : t.right.isSome.toNat = t'.right.isSome.toNat := by omega
    have parents : parentLeaves 1 t.parents = parentLeaves 1 t'.parents := by omega
    exact ⟨hleft.trans hleft'.symm, by simpa using congrArg (· = 1) right,
      map_isSome_eq_of_parentLeaves_eq ht.last ht'.last parents⟩
  · omega
  · omega
  · have right : t.right.isSome = t'.right.isSome := by
      rw [Bool.eq_false_iff.2 fun hr => hleft (ht.right hr),
        Bool.eq_false_iff.2 fun hr => hleft' (ht'.right hr)]
    have parents : t.parents = [] := by_contra fun hne => hleft (ht.parents hne)
    have parents' : t'.parents = [] := by_contra fun hne => hleft' (ht'.parents hne)
    exact ⟨by rw [Bool.eq_false_iff.2 hleft, Bool.eq_false_iff.2 hleft'], right,
      by rw [parents, parents']⟩

/-- Levels hold fewer leaves than a tree of their height. -/
theorem parentLeaves_lt_width : ∀ parents : List (Option α),
    parentLeaves 1 parents < width parents.length
  | [] => Nat.one_pos
  | none :: rest => by
    have below := parentLeaves_lt_width rest
    have twice := parentLeaves_two_mul rest 1
    simp only [parentLeaves, List.length_cons, width] at twice ⊢
    omega
  | some _ :: rest => by
    have below := parentLeaves_lt_width rest
    have twice := parentLeaves_two_mul rest 1
    simp only [parentLeaves, List.length_cons, width] at twice ⊢
    omega

/-- A tree has the shape of a tree of leaves exactly if it is well shaped, provided that it has no
more levels than a tree may have. -/
theorem wellShaped_iff [Inhabited α] {t : CommitmentTree α}
    (hlevels : t.parents.length < treeDepth) :
    t.WellShaped ↔ ∃ leaves t', Holds h t' leaves ∧ t'.SameShape t := by
  constructor
  · intro ht
    obtain ⟨n, hn⟩ : ∃ n, t.size? = some n := ⟨_, ht.size?⟩
    have fits : n ≤ width treeDepth := by
      have levels : 2 * width t.parents.length ≤ width treeDepth := width_le_of_le hlevels
      have stored := parentLeaves_lt_width t.parents
      have toNat_le := t.right.isSome.toNat_le
      rw [ht.size?, Option.some.injEq] at hn
      split at hn <;> omega
    obtain ⟨t', ht'⟩ := Holds.exists_extended (h := h) (List.replicate n default) .empty
      (by simpa using fits)
    have size' : t'.size? = some n := by simpa using ht'.size?.1
    exact ⟨_, t', ht', ht'.wellShaped.sameShape ht (size'.trans hn.symm)⟩
  · rintro ⟨leaves, t', ht', same⟩
    exact same.wellShaped ht'.wellShaped

/-! ## Reading -/

/-- A tree is read from its encoding and from nothing else. -/
theorem read_exact : Reader.Exact read encode := by
  have node : Reader.Exact (Reader.optional readNode) (encodeOptional encodeNode) :=
    .optional (.take 32)
  intro bytes t rest hread
  obtain ⟨left, _, hleft, hread⟩ := Reader.bind_eq_ok_iff.1 hread
  obtain ⟨right, _, hright, hread⟩ := Reader.bind_eq_ok_iff.1 hread
  obtain ⟨parents, _, hparents, hread⟩ := Reader.bind_eq_ok_iff.1 hread
  split at hread
  next hlevels =>
    obtain ⟨rfl, rfl⟩ := Reader.pure_eq_ok_iff.1 hread
    rw [node hleft, node hright, node.list hparents]
    simp only [encode, List.append_assoc]
  next => cases hread

/-- A tree that is read has no more levels than a tree may have. -/
theorem length_parents_lt_of_read {bytes rest : List UInt8} {t : NoteTree}
    (hread : read bytes = .ok (t, rest)) : t.parents.length < treeDepth := by
  obtain ⟨left, _, -, hread⟩ := Reader.bind_eq_ok_iff.1 hread
  obtain ⟨right, _, -, hread⟩ := Reader.bind_eq_ok_iff.1 hread
  obtain ⟨parents, _, -, hread⟩ := Reader.bind_eq_ok_iff.1 hread
  split at hread
  next hlevels =>
    obtain ⟨rfl, rfl⟩ := Reader.pure_eq_ok_iff.1 hread
    exact hlevels
  next => cases hread

/-- A tree is read from its encoding only, and from that whenever it has no more levels than a tree
may have. -/
theorem read_eq_ok_iff {bytes rest : List UInt8} {t : NoteTree} :
    read bytes = .ok (t, rest) ↔ bytes = t.encode ++ rest ∧ t.parents.length < treeDepth := by
  constructor
  · exact fun hread => ⟨read_exact hread, length_parents_lt_of_read hread⟩
  · rintro ⟨rfl, hlevels⟩
    exact readsBack hlevels rest

/-- What the reader of trees accepts. It reads a tree just from its encoding, whatever follows that,
and any tree that has no more levels than a tree may have. Writing the tree again gives back the
bytes that were taken. The tree that was read has the shape of one that comes about by appending
leaves exactly if a right leaf has a left one, levels above the leaves are there only with a left
leaf, and the highest of them is there because something was carried to it. The reader asks for none
of this. -/
theorem decoded_shape (bytes rest : List UInt8) (t : NoteTree) :
    (read bytes = .ok (t, rest) ↔ bytes = t.encode ++ rest ∧ t.parents.length < treeDepth) ∧
      (read bytes = .ok (t, rest) →
        ((∃ leaves t', Holds sproutHash t' leaves ∧ t'.SameShape t) ↔
          (t.right.isSome → t.left.isSome) ∧ (t.parents ≠ [] → t.left.isSome) ∧
            t.parents.getLast? ≠ some none)) := by
  refine ⟨read_eq_ok_iff, fun hread => ?_⟩
  rw [← wellShaped_iff (length_parents_lt_of_read hread)]
  exact ⟨fun ht => ⟨ht.right, ht.parents, ht.last⟩, fun ⟨right, parents, last⟩ =>
    ⟨right, parents, last⟩⟩

/-- The path of five leaves is read, from before a stray byte, and has the shape of a tree of
leaves. -/
theorem decoded_shape_five :
    let t : NoteTree := ⟨some (Bytes.filled 32 5), none, [none, some (Bytes.filled 32 9)]⟩
    read (t.encode ++ [7]) = .ok (t, [7]) ∧
      ∃ leaves t', Holds sproutHash t' leaves ∧ t'.SameShape t := by
  intro t
  obtain ⟨hread, hshape⟩ := decoded_shape (t.encode ++ [7]) [7] t
  have stored := hread.2 ⟨rfl, by decide⟩
  exact ⟨stored, (hshape stored).2 (by decide)⟩

/-- A right leaf without a left one is read, though by no rule has a tree of leaves this shape. -/
theorem decoded_right_only :
    let bytes : List UInt8 := 0 :: 1 :: (List.replicate 32 0 ++ [0])
    ∃ t : NoteTree, read bytes = .ok (t, []) ∧
      ¬ ∃ h leaves t', Holds h t' leaves ∧ t'.SameShape t := by
  intro bytes
  refine ⟨⟨none, some Bytes.zero, []⟩, rfl, ?_⟩
  rintro ⟨h, leaves, t', ht', same⟩
  have left := (same.wellShaped ht'.wellShaped).right rfl
  cases left

end CommitmentTree
end ShieldedLedger
