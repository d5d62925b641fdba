import ShieldedLedger.CommitmentTree.Witness
import ShieldedLedger.Proofs.CommitmentTree.Leaves

/-!
# Witnesses follow their tree

`Witness.Follows h w before later` says that `w` witnesses the last of the leaves `before` and has
been given the leaves `later` since. This is kept by every append (`Follows.append?`): as long as
the tree takes a leaf, the witness does. Its root is the root of the tree over all the leaves
(`Follows.root`), and its position stays that of the leaf witnessed (`Follows.position?`).

What a witness keeps is compared with the heights at which its tree has gaps, from the lowest gap on
(`Caught`): the gaps that later leaves have filled, the one they are filling, and those still open.
-/

namespace ShieldedLedger

open CommitmentTree

variable {α : Type} {h : NodeHash α}

/-- Higher subtrees are wider. -/
theorem width_le_of_le {k m : Nat} (hkm : k ≤ m) : width k ≤ width m := by
  induction hkm with
  | refl => exact Nat.le_refl _
  | step _ ih =>
    rw [width]
    omega

/-- A subtree above the leaves has more leaves than one. -/
theorem one_lt_width {k : Nat} (hk : 0 < k) : 1 < width k := by
  have narrow : width 1 ≤ width k := width_le_of_le hk
  exact Nat.lt_of_lt_of_le (by decide) narrow

/-- A tree with leaves and room for more is higher than one leaf. -/
theorem pos_of_lt_width {k n : Nat} (hpos : 0 < n) (hlt : n < width k) : 0 < k := by
  rcases Nat.eq_zero_or_pos k with rfl | hk
  · rw [width] at hlt
    omega
  · exact hk

namespace CommitmentTree

/-- Gaps are below the height the levels reach up to. -/
theorem lt_of_mem_gaps : ∀ (m k : Nat) (parents : List (Option α)),
    ∀ height ∈ gaps k (pad m parents), height < k + m
  | 0, _, _, _, hmem => nomatch hmem
  | m + 1, k, [], height, hmem => by
    rcases List.mem_cons.1 hmem with rfl | hmem
    · omega
    · have := lt_of_mem_gaps m (k + 1) [] height hmem
      omega
  | m + 1, k, none :: rest, height, hmem => by
    rcases List.mem_cons.1 hmem with rfl | hmem
    · omega
    · have := lt_of_mem_gaps m (k + 1) rest height hmem
      omega
  | m + 1, k, some _ :: rest, height, hmem => by
    have := lt_of_mem_gaps m (k + 1) rest height hmem
    omega

/-- What is missing of a tree is below its depth. -/
theorem lt_of_mem_missing {t : CommitmentTree α} {depth height : Nat} (hd : 0 < depth)
    (hmem : height ∈ t.missing depth) : height < depth := by
  rcases List.mem_append.1 hmem with hmem | hmem
  · have leaf : height = 0 := by
      rcases List.mem_append.1 hmem with hmem | hmem <;> split at hmem <;> simp_all
    omega
  · have := lt_of_mem_gaps _ _ _ height hmem
    omega

end CommitmentTree

namespace Witness

/-! ## The height of the next gap -/

/-- On levels where nothing is, there is a gap at each height. -/
theorem getElem?_gaps_nil : ∀ (m k skip : Nat),
    (gaps k (pad m ([] : List (Option α))))[skip]? = if skip < m then some (k + skip) else none
  | 0, _, _ => rfl
  | m + 1, k, 0 => by simp [pad, gaps]
  | m + 1, k, skip + 1 => by
    rw [pad, gaps, List.getElem?_cons_succ, getElem?_gaps_nil m (k + 1) skip]
    simp only [Nat.add_lt_add_iff_right]
    split
    · rw [show k + 1 + skip = k + (skip + 1) by omega]
    · rfl

/-- The open height after `skip` gaps is that of the next gap, or is beyond the levels counted. -/
theorem openHeight_eq : ∀ (parents : List (Option α)) (i m skip : Nat),
    let height := openHeight (i + parents.length + 1) skip
      ((parents.zipIdx i).map fun (parent, level) => (level + 1, parent.isSome))
    (∀ k, (gaps (i + 1) (pad m parents))[skip]? = some k → height = k) ∧
      ((gaps (i + 1) (pad m parents))[skip]? = none → i + 1 + m ≤ height)
  | [], i, m, skip => by
    simp only [List.zipIdx_nil, List.map_nil, openHeight, List.length_nil, Nat.add_zero]
    rw [getElem?_gaps_nil]
    constructor
    · intro k hk
      split at hk
      · exact Option.some.inj hk
      · cases hk
    · intro hn
      split at hn
      · cases hn
      · omega
  | some parent :: rest, i, m, skip => by
    have ih := openHeight_eq rest (i + 1) (m - 1) skip
    rw [show i + 1 + rest.length + 1 = i + (some parent :: rest).length + 1 by
      rw [List.length_cons]; omega] at ih
    simp only [List.zipIdx_cons, List.map_cons, Option.isSome_some, openHeight] at ih ⊢
    cases m with
    | zero => exact ⟨fun _ hk => (nomatch hk), fun _ => by have := ih.2 rfl; omega⟩
    | succ m =>
      refine ⟨ih.1, fun hn => ?_⟩
      have := ih.2 hn
      omega
  | none :: rest, i, m, 0 => by
    simp only [List.zipIdx_cons, List.map_cons, Option.isSome_none, openHeight]
    cases m with
    | zero => exact ⟨fun _ hk => (nomatch hk), fun _ => by omega⟩
    | succ m => exact ⟨fun k hk => Option.some.inj hk, fun hn => nomatch hn⟩
  | none :: rest, i, m, skip + 1 => by
    have ih := openHeight_eq rest (i + 1) (m - 1) skip
    rw [show i + 1 + rest.length + 1 = i + ((none : Option α) :: rest).length + 1 by
      rw [List.length_cons]; omega] at ih
    simp only [List.zipIdx_cons, List.map_cons, Option.isSome_none, openHeight] at ih ⊢
    cases m with
    | zero => exact ⟨fun _ hk => (nomatch hk), fun _ => by have := ih.2 rfl; omega⟩
    | succ m =>
      refine ⟨ih.1, fun hn => ?_⟩
      have := ih.2 hn
      omega

/-- The next leaf belongs to a subtree of the height of the next gap; if there is none, the tree is
full. -/
theorem nextDepth_eq (w : Witness α) (hleft : w.tree.left.isSome) :
    (∀ k, (w.tree.missing treeDepth)[w.filled.length]? = some k → w.nextDepth = k) ∧
      ((w.tree.missing treeDepth)[w.filled.length]? = none → treeDepth ≤ w.nextDepth) := by
  have levels := fun skip => openHeight_eq w.tree.parents 0 (treeDepth - 1) skip
  simp only [Nat.zero_add] at levels
  unfold nextDepth places missing
  rw [hleft, if_pos rfl, List.nil_append]
  simp only [openHeight]
  cases hright : w.tree.right with
  | some r => exact levels _
  | none =>
    cases w.filled.length with
    | zero => exact ⟨fun k hk => Option.some.inj hk, fun hn => nomatch hn⟩
    | succ skip => exact levels skip

/-! ## Catching up with later leaves -/

/-- What has been filled and what is being filled after one more leaf, the next gap being of height
`next`. -/
def catchUp (h : NodeHash α) (next : Nat) (filled : List α) (cursor : Option (CommitmentTree α))
    (leaf : α) : Option (List α × Option (CommitmentTree α)) :=
  match cursor with
  | some cursor =>
    (cursor.append? h leaf).map fun cursor =>
      if cursor.isComplete next then (filled ++ [cursor.rootWith h next []], none)
      else (filled, some cursor)
  | none =>
    if next ≥ treeDepth then none
    else if next = 0 then some (filled ++ [leaf], none)
    else some (filled, some ⟨some leaf, none, []⟩)

/-- Appending to a witness brings up to date what it has filled and begun, and leaves the tree
alone. -/
theorem append?_eq_catchUp (w : Witness α) (leaf : α) :
    w.append? h leaf = (catchUp h w.nextDepth w.filled w.cursor leaf).map fun (filled, cursor) =>
      { w with filled, cursor } := by
  unfold append? catchUp
  cases hc : w.cursor with
  | none =>
    dsimp only
    split
    · rfl
    · split <;> simp
  | some cursor =>
    dsimp only
    rw [Option.map_map]
    congr 1
    funext cursor
    simp only [Function.comp_apply]
    split <;> simp

/-- Subtrees that are filled stay in front. -/
theorem catchUp_cons (next : Nat) (filler : α) (filled : List α)
    (cursor : Option (CommitmentTree α)) (leaf : α) :
    catchUp h next (filler :: filled) cursor leaf =
      (catchUp h next filled cursor leaf).map fun (filled, cursor) =>
        (filler :: filled, cursor) := by
  unfold catchUp
  cases cursor with
  | none =>
    dsimp only
    split
    · rfl
    · split <;> rfl
  | some cursor =>
    dsimp only
    rw [Option.map_map]
    congr 1
    funext cursor
    simp only [Function.comp_apply]
    split <;> simp

/-- What has been filled and what is being filled of gaps of the given heights, the lowest first,
by the leaves `later`. -/
inductive Caught (h : NodeHash α) :
    (heights : List Nat) → (filled : List α) → Option (CommitmentTree α) → (later : List α) → Prop
  | start {heights : List Nat} : Caught h heights [] none []
  | partly {k : Nat} {heights : List Nat} {cursor : CommitmentTree α} {later : List α} :
    0 < later.length → later.length < width k → Holds h cursor later →
    Caught h (k :: heights) [] (some cursor) later
  | full {k : Nat} {heights : List Nat} {filled : List α} {cursor : Option (CommitmentTree α)}
    {chunk later : List α} :
    chunk.length = width k → Caught h heights filled cursor later →
    Caught h (k :: heights) (subtree h k chunk :: filled) cursor (chunk ++ later)

namespace Caught

variable {heights : List Nat} {filled later : List α} {cursor : Option (CommitmentTree α)}

/-- The first leaf for a gap fills it, or is the first of more. -/
theorem catchUp_start {k : Nat} (hlt : k < treeDepth) (leaf : α) :
    ∃ filled cursor, Witness.catchUp h k [] none leaf = some (filled, cursor) ∧
      Caught h (k :: heights) filled cursor [leaf] := by
  unfold Witness.catchUp
  dsimp only
  rw [if_neg (by omega)]
  split
  · next hk =>
    subst hk
    have done : Caught h (0 :: heights) [subtree h 0 [leaf]] none ([leaf] ++ []) :=
      .full rfl .start
    exact ⟨_, _, rfl, done⟩
  · next hk =>
    have one : Holds h ⟨some leaf, none, []⟩ [leaf] := .append .empty rfl
    exact ⟨_, _, rfl, .partly Nat.one_pos (one_lt_width (by omega)) one⟩

/-- One more leaf for a gap that is being filled fills it, or leaves room for more. -/
theorem catchUp_partly {k : Nat} {cursor : CommitmentTree α} (hfew : later.length < width k)
    (hk : 0 < k) (hlt : k < treeDepth) (held : Holds h cursor later) (leaf : α) :
    ∃ filled cursor', Witness.catchUp h k [] (some cursor) leaf = some (filled, cursor') ∧
      Caught h (k :: heights) filled cursor' (later ++ [leaf]) := by
  have narrow : width k ≤ width treeDepth := width_le_of_le (by omega)
  have room : cursor.isComplete treeDepth = false := by
    rw [← Bool.not_eq_true, held.isComplete_iff (by decide) (by omega)]
    omega
  have taken : cursor.append? h leaf = some (cursor.grow h leaf) :=
    append?_eq_some_iff.2 ⟨room, rfl⟩
  have grown : Holds h (cursor.grow h leaf) (later ++ [leaf]) := .append held taken
  have hlen : (later ++ [leaf]).length = later.length + 1 := by simp
  unfold Witness.catchUp
  dsimp only
  rw [taken, Option.map_some]
  split
  · next hcomplete =>
    have all := (grown.isComplete_iff hk (by omega)).1 hcomplete
    rw [grown.rootWith hk (by omega)]
    have done : Caught h (k :: heights) [subtree h k (later ++ [leaf])] none
        (later ++ [leaf] ++ []) := .full all .start
    rw [List.append_nil] at done
    exact ⟨_, _, rfl, done⟩
  · next hopen =>
    rw [grown.isComplete_iff hk (by omega)] at hopen
    exact ⟨_, _, rfl, .partly (by omega) (by omega) grown⟩

/-- One more leaf fills on, as long as there is a gap to fill. -/
theorem catchUp (hc : Caught h heights filled cursor later) {next : Nat} (leaf : α)
    (hnext : heights[filled.length]? = some next) (hlt : next < treeDepth) :
    ∃ filled' cursor', Witness.catchUp h next filled cursor leaf = some (filled', cursor') ∧
      Caught h heights filled' cursor' (later ++ [leaf]) := by
  induction hc with
  | @start heights =>
    cases heights with
    | nil => cases hnext
    | cons k rest =>
      obtain rfl := Option.some.inj hnext
      exact catchUp_start hlt leaf
  | partly hpos hfew held =>
    obtain rfl := Option.some.inj hnext
    exact catchUp_partly hfew (pos_of_lt_width hpos hfew) hlt held leaf
  | full hchunk _ ih =>
    obtain ⟨filled', cursor', hstep, hcaught⟩ := ih hnext
    rw [catchUp_cons, hstep, List.append_assoc]
    exact ⟨_, _, rfl, .full hchunk hcaught⟩

/-- When there is no gap left, none is being filled. -/
theorem cursor_eq_none (hc : Caught h heights filled cursor later)
    (hnone : heights[filled.length]? = none) : cursor = none := by
  induction hc with
  | start => rfl
  | partly _ _ _ => cases hnone
  | full _ _ ih => exact ih hnone

/-- When there is no gap left, the leaves have filled them all. -/
theorem leavesAt_le (hc : Caught h heights filled cursor later)
    (hnone : heights[filled.length]? = none) : leavesAt heights ≤ later.length := by
  induction hc with
  | @start heights =>
    cases heights with
    | nil => exact Nat.zero_le _
    | cons k rest => cases hnone
  | partly _ _ _ => cases hnone
  | full hchunk _ ih =>
    have := ih hnone
    rw [leavesAt_cons, List.length_append]
    omega

/-- There are no more filled subtrees than there were gaps. -/
theorem length_filled_le (hc : Caught h heights filled cursor later) :
    filled.length ≤ heights.length := by
  induction hc with
  | start => exact Nat.zero_le _
  | partly _ _ _ => exact Nat.zero_le _
  | full _ _ ih => exact Nat.succ_le_succ ih

/-- What is being filled is a tree of some of the leaves. -/
theorem exists_holds (hc : Caught h heights filled cursor later) {t : CommitmentTree α}
    (ht : cursor = some t) : ∃ leaves, Holds h t leaves := by
  induction hc with
  | start => cases ht
  | partly _ _ held => exact ⟨_, Option.some.inj ht ▸ held⟩
  | full _ _ ih => exact ih ht

/-- What has been filled and the root of what is being filled are the subtrees over the leaves. -/
theorem fills (hc : Caught h heights filled cursor later) {next : Nat}
    (hnext : ∀ k, heights[filled.length]? = some k → next = k) :
    Fills h heights (filled ++ (cursor.map fun cursor => cursor.rootWith h next []).toList)
      later := by
  induction hc with
  | start => simp [Fills]
  | @partly k heights cursor later hpos hfew held =>
    obtain rfl := hnext k rfl
    have hk : 0 < next := pos_of_lt_width hpos hfew
    refine ⟨held.rootWith hk (by omega), ?_⟩
    rw [List.drop_eq_nil_of_le (by omega)]
    simp [Fills]
  | @full k heights filled cursor chunk later hchunk _ ih =>
    refine ⟨(subtree_append later hchunk).symm, ?_⟩
    rw [← hchunk, List.drop_left]
    exact ih hnext

end Caught

/-! ## Following the tree -/

/-- The witness is of the last of the leaves `before`, and has been given the leaves `later` since.
-/
structure Follows (h : NodeHash α) (w : Witness α) (before later : List α) : Prop where
  tree : Holds h w.tree before
  ne_nil : before ≠ []
  caught : Caught h (w.tree.missing treeDepth) w.filled w.cursor later

/-- A witness of the last leaf follows the tree, before any later leaf. -/
theorem follows_ofTree {t : CommitmentTree α} {before : List α} (ht : Holds h t before)
    (hne : before ≠ []) : Follows h (ofTree t) before [] :=
  ⟨ht, hne, .start⟩

namespace Follows

variable {w : Witness α} {before later : List α}

/-- As long as there is a gap, the witness takes a leaf. -/
theorem append?_of_gap (hw : Follows h w before later) {k : Nat}
    (hgap : (w.tree.missing treeDepth)[w.filled.length]? = some k) (leaf : α) :
    ∃ w', w.append? h leaf = some w' ∧ Follows h w' before (later ++ [leaf]) := by
  have next := w.nextDepth_eq (hw.tree.size?.2 hw.ne_nil)
  have hlt := lt_of_mem_missing (by decide) (List.mem_of_getElem? hgap)
  obtain ⟨filled', cursor', hstep, hcaught⟩ := hw.caught.catchUp leaf hgap hlt
  rw [append?_eq_catchUp, next.1 k hgap, hstep]
  exact ⟨_, rfl, hw.tree, hw.ne_nil, hcaught⟩

/-- As long as the tree takes a leaf, the witness does. -/
theorem append? (hw : Follows h w before later) {t t' : CommitmentTree α} {leaf : α}
    (ht : Holds h t (before ++ later)) (ha : t.append? h leaf = some t') :
    ∃ w', w.append? h leaf = some w' ∧ Follows h w' before (later ++ [leaf]) := by
  cases hgap : (w.tree.missing treeDepth)[w.filled.length]? with
  | none =>
    -- then the witness has been given all the leaves there is room for
    have filled := hw.caught.leavesAt_le hgap
    have wide : width treeDepth ≤ before.length + leavesAt (w.tree.missing treeDepth) :=
      width_le_missing hw.tree.size?.1 (by decide)
    have grown := (Holds.append ht ha).length_le
    rw [List.length_append, List.length_append, List.length_singleton] at grown
    omega
  | some k => exact hw.append?_of_gap hgap leaf

/-- A leaf that the witness takes is one it has been given. -/
theorem of_append? (hw : Follows h w before later) {leaf : α} {w' : Witness α}
    (ha : w.append? h leaf = some w') : Follows h w' before (later ++ [leaf]) := by
  cases hgap : (w.tree.missing treeDepth)[w.filled.length]? with
  | none =>
    have full := (w.nextDepth_eq (hw.tree.size?.2 hw.ne_nil)).2 hgap
    rw [append?_eq_catchUp, hw.caught.cursor_eq_none hgap, catchUp, if_pos full] at ha
    cases ha
  | some k =>
    obtain ⟨_, ha', hw'⟩ := hw.append?_of_gap hgap leaf
    exact Option.some.inj (ha.symm.trans ha') ▸ hw'

/-- The root of the witness is the root of the tree. -/
theorem root (hw : Follows h w before later) {t : CommitmentTree α}
    (ht : Holds h t (before ++ later)) : w.root h = t.root h := by
  have next := w.nextDepth_eq (hw.tree.size?.2 hw.ne_nil)
  have filled := hw.caught.fills next.1
  have hle := ht.length_le
  rw [List.length_append] at hle
  rw [ht.root, ← hw.tree.rootThrough (by decide) later hle]
  exact rootWith_eq_rootThrough filled

/-- The position of the witness is that of the leaf witnessed. -/
theorem position? (hw : Follows h w before later) : w.position? = some (before.length - 1) := by
  have left := hw.tree.size?.2 hw.ne_nil
  unfold Witness.position?
  rw [Option.isNone_eq_false_iff.2 left, hw.tree.size?.1]
  rfl

end Follows
end Witness
end ShieldedLedger
