import ShieldedLedger.CommitmentTree

/-!
# What a commitment tree stands for

`subtree h k leaves` is the Merkle root over the first leaves of a list, as many as a tree of height
`k` has, with empty leaves where the list ends. A stored path stands for the leaves appended to it
(`CommitmentTree.Holds`): as a tree of any height that the leaves fit in, its root is their
`subtree` (`Holds.rootWith`, `Holds.root`), it is complete exactly if they fill it
(`Holds.isComplete_iff`), and appending a leaf adds it to them (`Holds.append?`).

The root is computed by a climb from the last leaves that finds a right sibling missing here and
there. `climbThrough` is the same climb with the missing siblings made of leaves that are still to
come. Appending a leaf moves it from those to come into the path and changes no node on the way
(`climbThrough_carry`, `rootThrough_grow`); that is the one step every result here rests on. All of
it holds for any rule to combine nodes.
-/

namespace ShieldedLedger

/-- The number of leaves of a tree of a given height. -/
def width : Nat → Nat
  | 0 => 1
  | k + 1 => 2 * width k

/-- A subtree has a leaf at least. -/
theorem width_pos : ∀ k, 0 < width k
  | 0 => Nat.one_pos
  | k + 1 => by
    have := width_pos k
    simp only [width]
    omega

variable {α : Type} {h : NodeHash α}

/-- The root over the first leaves of the list, as many as a tree of height `k` has. Where the list
ends the leaves are empty. -/
def subtree (h : NodeHash α) : (k : Nat) → (leaves : List α) → α
  | 0, leaves => leaves.headD h.emptyLeaf
  | k + 1, leaves => h.combine (subtree h k leaves) (subtree h k (leaves.drop (width k)))

/-- Leaves beyond the first ones do not count. -/
theorem subtree_append (more : List α) :
    ∀ {k : Nat} {leaves : List α}, leaves.length = width k →
      subtree h k (leaves ++ more) = subtree h k leaves
  | 0, [leaf], _ => rfl
  | k + 1, leaves, hl => by
    simp only [width] at hl
    have halves : leaves = leaves.take (width k) ++ leaves.drop (width k) :=
      (List.take_append_drop _ _).symm
    have left : (leaves.take (width k)).length = width k := by
      rw [List.length_take]
      omega
    have right : (leaves.drop (width k)).length = width k := by
      rw [List.length_drop]
      omega
    have dropped : (leaves ++ more).drop (width k) = leaves.drop (width k) ++ more :=
      List.drop_append_of_le_length (by omega)
    simp only [subtree]
    rw [dropped, subtree_append more right]
    congr 1
    rw [halves, List.append_assoc, subtree_append _ left, subtree_append _ left]

namespace CommitmentTree

/-! ## The levels of a tree of given height -/

/-- The first `n` levels, those not listed being absent. -/
def pad : (n : Nat) → (parents : List (Option α)) → List (Option α)
  | 0, _ => []
  | n + 1, [] => none :: pad n []
  | n + 1, parent :: rest => parent :: pad n rest

/-- The parents within a depth are those stored, with levels added that are not there. -/
theorem parentsWithin_eq_pad (t : CommitmentTree α) (depth : Nat) :
    t.parentsWithin depth = pad (depth - 1) t.parents := by
  have padded : ∀ (n m : Nat) (parents : List (Option α)), n ≤ m →
      (parents ++ List.replicate m none).take n = pad n parents := by
    intro n
    induction n with
    | zero => exact fun _ _ _ => List.take_zero
    | succ n ih =>
      intro m parents hm
      cases parents with
      | nil =>
        obtain ⟨m, rfl⟩ : ∃ k, m = k + 1 := ⟨m - 1, by omega⟩
        have := ih m [] (by omega)
        rw [List.nil_append] at this
        rw [List.nil_append, List.replicate_succ, List.take_succ_cons, this, pad]
      | cons parent rest =>
        rw [List.cons_append, List.take_succ_cons, ih m rest (by omega), pad]
  exact padded (depth - 1) (depth - 1) t.parents (Nat.le_refl _)

/-- The heights at which nothing waits on the left, the lowest of the levels being of height `k`. -/
def gaps (k : Nat) : (parents : List (Option α)) → List Nat
  | [] => []
  | some _ :: rest => gaps (k + 1) rest
  | none :: rest => k :: gaps (k + 1) rest

/-- The heights of the subtrees that the tree, as one of `depth` levels, has not got. -/
def missing (t : CommitmentTree α) (depth : Nat) : List Nat :=
  (if t.left.isSome then [] else [0]) ++ (if t.right.isSome then [] else [0]) ++
    gaps 1 (pad (depth - 1) t.parents)

/-! ## Climbing through leaves to come -/

/-- Climbs from `node`, of height `k`, through the levels above it. Where nothing waits on the left,
the right sibling is the subtree over the next of the leaves to come. -/
def climbThrough (h : NodeHash α) :
    (k : Nat) → (node : α) → (parents : List (Option α)) → (later : List α) → α
  | _, node, [], _ => node
  | k, node, some waiting :: rest, later =>
    climbThrough h (k + 1) (h.combine waiting node) rest later
  | k, node, none :: rest, later =>
    climbThrough h (k + 1) (h.combine node (subtree h k later)) rest (later.drop (width k))

/-- A leaf if it is there, or else the next of the leaves to come; and those left. -/
def leafThrough (h : NodeHash α) : (leaf : Option α) → (later : List α) → α × List α
  | some leaf, later => (leaf, later)
  | none, later => (subtree h 0 later, later.drop 1)

/-- The root that the tree, as one of `depth` levels, has once more leaves have come. -/
def rootThrough (h : NodeHash α) (t : CommitmentTree α) (depth : Nat) (later : List α) : α :=
  let (l, later) := leafThrough h t.left later
  let (r, later) := leafThrough h t.right later
  climbThrough h 1 (h.combine l r) (pad (depth - 1) t.parents) later

/-- Nothing but leaves to come is a whole subtree of them. -/
theorem climbThrough_pad_nil (later : List α) : ∀ (m k : Nat),
    climbThrough h k (subtree h k later) (pad m []) (later.drop (width k)) = subtree h (k + m) later
  | 0, k => rfl
  | m + 1, k => by
    have step := climbThrough_pad_nil later m (k + 1)
    have twice : (later.drop (width k)).drop (width k) = later.drop (width (k + 1)) := by
      rw [List.drop_drop, width]
      congr 1
      omega
    rw [pad, climbThrough, twice]
    rw [show k + (m + 1) = k + 1 + m by omega]
    exact step

/-- The subtree carried upwards makes room for the next one of its height. -/
theorem climbThrough_carry : ∀ (parents : List (Option α)) {m k : Nat} {node : α} {later : List α},
    (pad m parents).all Option.isSome = false →
    climbThrough h k node (pad m parents) later =
      climbThrough h k (subtree h k later) (pad m (carry h node parents)) (later.drop (width k))
  | _, 0, _, _, _, hm => nomatch hm
  | [], _ + 1, _, _, _, _ => rfl
  | none :: _, _ + 1, _, _, _, _ => rfl
  | some waiting :: rest, m + 1, k, node, later, hm => by
    have hm : (pad m rest).all Option.isSome = false := by simpa [pad] using hm
    have twice : (later.drop (width k)).drop (width k) = later.drop (width (k + 1)) := by
      rw [List.drop_drop, width]
      congr 1
      omega
    rw [pad, climbThrough, climbThrough_carry rest hm, carry, pad, climbThrough, twice]
    rfl

/-! ## Filling the gaps -/

/-- The fillers are the subtrees over the leaves to come, one for each height while there are leaves
left. -/
def Fills (h : NodeHash α) : (heights : List Nat) → (fillers later : List α) → Prop
  | _, [], later => later = []
  | [], _ :: _, _ => False
  | k :: heights, filler :: fillers, later =>
    filler = subtree h k later ∧ Fills h heights fillers (later.drop (width k))

/-- Climbing with nodes that stand for the missing leaves is climbing through these leaves. -/
theorem climb_eq_climbThrough : ∀ (parents : List (Option α)) {k : Nat} {node : α}
    {fillers later : List α}, Fills h (gaps k parents) fillers later →
    climb h (subtree h k []) node parents fillers = climbThrough h k node parents later
  | [], _, _, _, _, _ => by simp only [climb, climbThrough]
  | some waiting :: rest, k, node, fillers, later, hf => by
    rw [climb, climbThrough]
    have emptied : h.combine (subtree h k []) (subtree h k []) = subtree h (k + 1) [] := by
      simp only [subtree, List.drop_nil]
    rw [emptied]
    exact climb_eq_climbThrough rest hf
  | none :: rest, k, node, fillers, later, hf => by
    have emptied : h.combine (subtree h k []) (subtree h k []) = subtree h (k + 1) [] := by
      simp only [subtree, List.drop_nil]
    cases fillers with
    | nil =>
      obtain rfl : later = [] := by simpa [gaps, Fills] using hf
      rw [climb, climbThrough, emptied, List.drop_nil]
      exact climb_eq_climbThrough rest (by simp [Fills])
    | cons filler fillers =>
      obtain ⟨rfl, hf⟩ := hf
      rw [climb, climbThrough, emptied]
      exact climb_eq_climbThrough rest hf

/-- A leaf that is missing takes the first filler. -/
theorem leafOr_eq_leafThrough (leaf : Option α) {heights : List Nat} {fillers later : List α}
    (hf : Fills h ((if leaf.isSome then [] else [0]) ++ heights) fillers later) :
    (leafOr h leaf fillers).1 = (leafThrough h leaf later).1 ∧
    Fills h heights (leafOr h leaf fillers).2 (leafThrough h leaf later).2 := by
  cases leaf with
  | some leaf => exact ⟨rfl, hf⟩
  | none =>
    cases fillers with
    | nil =>
      obtain rfl : later = [] := by simpa [Fills] using hf
      exact ⟨rfl, by simp [leafOr, leafThrough, Fills]⟩
    | cons filler fillers =>
      obtain ⟨rfl, hf⟩ := hf
      exact ⟨rfl, hf⟩

/-- With fillers made of leaves to come, the root is the one the tree has once these have come. -/
theorem rootWith_eq_rootThrough {t : CommitmentTree α} {depth : Nat} {fillers later : List α}
    (hf : Fills h (t.missing depth) fillers later) :
    t.rootWith h depth fillers = t.rootThrough h depth later := by
  unfold missing at hf
  rw [List.append_assoc] at hf
  obtain ⟨left, hf⟩ := leafOr_eq_leafThrough t.left hf
  obtain ⟨right, hf⟩ := leafOr_eq_leafThrough t.right hf
  have climbed : ∀ node, climb h (subtree h 1 []) node (pad (depth - 1) t.parents)
      (leafOr h t.right (leafOr h t.left fillers).2).2 =
      climbThrough h 1 node (pad (depth - 1) t.parents)
        (leafThrough h t.right (leafThrough h t.left later).2).2 :=
    fun _ => climb_eq_climbThrough _ hf
  unfold rootWith rootThrough
  rw [parentsWithin_eq_pad]
  dsimp only
  rw [← left, ← right]
  exact climbed _

/-! ## Growing -/

/-- The tree with one more leaf, where there is room for it. -/
def grow (h : NodeHash α) (t : CommitmentTree α) (leaf : α) : CommitmentTree α :=
  match t.left, t.right with
  | none, _ => { t with left := some leaf }
  | some _, none => { t with right := some leaf }
  | some l, some r => ⟨some leaf, none, carry h (h.combine l r) t.parents⟩

/-- A leaf is taken unless the tree is complete, and then the tree has grown by it. -/
theorem append?_eq_some_iff {t t' : CommitmentTree α} {leaf : α} :
    t.append? h leaf = some t' ↔ t.isComplete treeDepth = false ∧ t' = t.grow h leaf := by
  unfold append? grow
  cases t.isComplete treeDepth with
  | true => simp
  | false =>
    rw [if_neg Bool.false_ne_true]
    cases t.left <;> cases t.right <;> simp [eq_comm]

/-- A tree that has taken a leaf has a left one. -/
theorem isSome_left_grow (t : CommitmentTree α) (leaf : α) : (t.grow h leaf).left.isSome := by
  unfold grow
  split <;> simp_all

/-- A leaf that is appended is the first of those to come before. -/
theorem rootThrough_grow {t : CommitmentTree α} {depth : Nat} (hd : 0 < depth)
    (room : t.isComplete depth = false) (leaf : α) (later : List α) :
    (t.grow h leaf).rootThrough h depth later = t.rootThrough h depth (leaf :: later) := by
  obtain ⟨left, right, parents⟩ := t
  cases left with
  | none => rfl
  | some l =>
    cases right with
    | none => rfl
    | some r =>
      have gap : (pad (depth - 1) parents).all Option.isSome = false := by
        simpa [isComplete, parentsWithin_eq_pad, show depth ≠ 0 by omega] using room
      have carried : climbThrough h 1 (h.combine l r) (pad (depth - 1) parents) (leaf :: later) =
          climbThrough h 1 (subtree h 1 (leaf :: later))
            (pad (depth - 1) (carry h (h.combine l r) parents)) ((leaf :: later).drop (width 1)) :=
        climbThrough_carry parents gap
      exact carried.symm

/-! ## Counting -/

/-- Twice the weight on every level counts twice as many leaves. -/
theorem parentLeaves_two_mul : ∀ (parents : List (Option α)) (weight : Nat),
    parentLeaves (2 * weight) parents = 2 * parentLeaves weight parents
  | [], _ => rfl
  | none :: rest, weight => by
    rw [parentLeaves, parentLeaves, parentLeaves_two_mul rest]
  | some _ :: rest, weight => by
    rw [parentLeaves, parentLeaves, parentLeaves_two_mul rest]
    omega

/-- A subtree that is carried up adds the leaves it has. -/
theorem parentLeaves_carry : ∀ (parents : List (Option α)) (weight : Nat) (node : α),
    parentLeaves weight (carry h node parents) = parentLeaves weight parents + weight
  | [], weight, _ => by simp only [carry, parentLeaves]; omega
  | none :: rest, weight, _ => by simp only [carry, parentLeaves]; omega
  | some waiting :: rest, weight, node => by
    simp only [carry, parentLeaves]
    rw [parentLeaves_carry rest]
    omega

/-- Levels that are all there hold as many leaves as fit below, but for one. -/
theorem width_le_of_all : ∀ {m : Nat} {parents : List (Option α)},
    (pad m parents).all Option.isSome = true → width m ≤ parentLeaves 1 parents + 1
  | 0, _, _ => by simp only [width]; omega
  | m + 1, [], hm => by simp [pad] at hm
  | m + 1, none :: rest, hm => by simp [pad] at hm
  | m + 1, some _ :: rest, hm => by
    have below : width m ≤ parentLeaves 1 rest + 1 := width_le_of_all (by simpa [pad] using hm)
    have twice := parentLeaves_two_mul rest 1
    simp only [parentLeaves, width] at twice ⊢
    omega

/-- And only then, since the levels count like the digits of a number. -/
theorem all_of_width_eq : ∀ {m : Nat} {parents : List (Option α)},
    parentLeaves 1 parents + 1 = width m → (pad m parents).all Option.isSome = true
  | 0, _, _ => rfl
  | m + 1, [], hw => by
    simp only [parentLeaves, width] at hw
    omega
  | m + 1, none :: rest, hw => by
    have twice := parentLeaves_two_mul rest 1
    simp only [parentLeaves, width] at twice hw
    omega
  | m + 1, some _ :: rest, hw => by
    have twice := parentLeaves_two_mul rest 1
    simp only [parentLeaves, width] at twice hw
    have above : (pad m rest).all Option.isSome = true := all_of_width_eq (by omega)
    simpa [pad] using above

/-- The number of leaves of trees of the given heights together. -/
def leavesAt : List Nat → Nat
  | [] => 0
  | k :: heights => width k + leavesAt heights

/-- No heights stand for no leaves. -/
@[simp] theorem leavesAt_nil : leavesAt [] = 0 := rfl

/-- The first height stands for the leaves of a subtree. -/
@[simp] theorem leavesAt_cons (k : Nat) (heights : List Nat) :
    leavesAt (k :: heights) = width k + leavesAt heights := rfl

/-- Leaves of two lists of heights add up. -/
theorem leavesAt_append (heights heights' : List Nat) :
    leavesAt (heights ++ heights') = leavesAt heights + leavesAt heights' := by
  induction heights with
  | nil => simp
  | cons k heights ih => simp [ih, Nat.add_assoc]

/-- On the next levels the gaps have room for twice as many leaves. -/
theorem leavesAt_gaps_succ : ∀ (parents : List (Option α)) (k : Nat),
    leavesAt (gaps (k + 1) parents) = 2 * leavesAt (gaps k parents)
  | [], _ => rfl
  | some _ :: rest, k => leavesAt_gaps_succ rest (k + 1)
  | none :: rest, k => by
    have ih := leavesAt_gaps_succ rest (k + 1)
    simp only [gaps, leavesAt_cons, width] at ih ⊢
    omega

/-- What the levels hold and what their gaps take is all there is, but for one. -/
theorem width_le_gaps : ∀ (m : Nat) (parents : List (Option α)),
    width m ≤ parentLeaves 1 parents + leavesAt (gaps 0 (pad m parents)) + 1
  | 0, _ => by simp only [width]; omega
  | m + 1, [] => by
    have below := width_le_gaps m ([] : List (Option α))
    have twice := leavesAt_gaps_succ (pad m ([] : List (Option α))) 0
    simp only [pad, gaps, leavesAt_cons, width, parentLeaves] at below twice ⊢
    omega
  | m + 1, none :: rest => by
    have below := width_le_gaps m rest
    have counted := parentLeaves_two_mul rest 1
    have twice := leavesAt_gaps_succ (pad m rest) 0
    simp only [pad, gaps, leavesAt_cons, width, parentLeaves] at below twice counted ⊢
    omega
  | m + 1, some _ :: rest => by
    have below := width_le_gaps m rest
    have counted := parentLeaves_two_mul rest 1
    have twice := leavesAt_gaps_succ (pad m rest) 0
    simp only [pad, gaps, width, parentLeaves] at below twice counted ⊢
    omega

/-- A tree that has taken a leaf has one more. -/
theorem size?_grow {t : CommitmentTree α} {n : Nat} (hn : t.size? = some n) (leaf : α) :
    (t.grow h leaf).size? = some (n + 1) := by
  obtain ⟨left, right, parents⟩ := t
  cases left with
  | none =>
    cases right with
    | none =>
      obtain rfl := Option.some.inj hn
      simp only [grow, size?, Option.some.injEq]
      omega
    | some r => cases hn
  | some l =>
    cases right with
    | none =>
      obtain rfl := Option.some.inj hn
      simp only [grow, size?, Option.some.injEq]
      omega
    | some r =>
      obtain rfl := Option.some.inj hn
      simp only [grow, size?, Option.some.injEq]
      rw [parentLeaves_carry]
      omega

/-- A tree is complete exactly if it has all the leaves it has room for. -/
theorem isComplete_iff_of_size? {t : CommitmentTree α} {n depth : Nat} (hn : t.size? = some n)
    (hleft : t.left.isSome) (hd : 0 < depth) (hle : n ≤ width depth) :
    t.isComplete depth = true ↔ n = width depth := by
  obtain ⟨left, right, parents⟩ := t
  obtain ⟨l, rfl⟩ := Option.isSome_iff_exists.1 hleft
  obtain ⟨m, rfl⟩ : ∃ m, depth = m + 1 := ⟨depth - 1, by omega⟩
  have counted := parentLeaves_two_mul parents 1
  cases right with
  | none =>
    -- an odd number of leaves is not the width of a tree with levels
    obtain rfl := Option.some.inj hn
    simp only [width, Nat.mul_one] at counted ⊢
    simp only [isComplete, Option.isSome_none, Bool.and_false, Bool.false_and,
      Nat.add_one_ne_zero, if_false, Bool.false_eq_true, false_iff]
    omega
  | some r =>
    obtain rfl := Option.some.inj hn
    have complete : isComplete ⟨some l, some r, parents⟩ (m + 1) =
        (pad m parents).all Option.isSome := by
      simp [isComplete, parentsWithin_eq_pad]
    simp only [width, Nat.mul_one] at hle counted ⊢
    rw [complete]
    constructor
    · intro hall
      have := width_le_of_all hall
      omega
    · intro heq
      exact all_of_width_eq (by omega)

/-- The subtrees that are missing take the leaves there is room for, or more. -/
theorem width_le_missing {t : CommitmentTree α} {n depth : Nat} (hn : t.size? = some n)
    (hd : 0 < depth) : width depth ≤ n + leavesAt (t.missing depth) := by
  obtain ⟨left, right, parents⟩ := t
  obtain ⟨m, rfl⟩ : ∃ m, depth = m + 1 := ⟨depth - 1, by omega⟩
  have below := width_le_gaps m parents
  have counted : parentLeaves 2 parents = 2 * parentLeaves 1 parents :=
    parentLeaves_two_mul parents 1
  have twice : leavesAt (gaps 1 (pad m parents)) = 2 * leavesAt (gaps 0 (pad m parents)) :=
    leavesAt_gaps_succ (pad m parents) 0
  unfold missing
  rw [leavesAt_append, leavesAt_append, width, Nat.add_sub_cancel]
  cases left <;> cases right <;> cases hn <;>
  · simp only [Option.isSome_none, Option.isSome_some, if_true, Bool.false_eq_true, if_false,
      leavesAt_nil, leavesAt_cons, width]
    omega

/-! ## Trees of leaves -/

/-- The tree has come about by appending the leaves to the empty tree. -/
inductive Holds (h : NodeHash α) : CommitmentTree α → List α → Prop
  | empty : Holds h empty []
  | append {t t' : CommitmentTree α} {leaves : List α} {leaf : α} :
    Holds h t leaves → t.append? h leaf = some t' → Holds h t' (leaves ++ [leaf])

namespace Holds

variable {t t' : CommitmentTree α} {leaves : List α} {leaf : α}

/-- The tree knows the number of its leaves, and has a left leaf once it has any. -/
theorem size? (ht : Holds h t leaves) :
    t.size? = some leaves.length ∧ (leaves ≠ [] → t.left.isSome) := by
  induction ht with
  | empty => exact ⟨rfl, fun hne => absurd rfl hne⟩
  | append _ ha ih =>
    obtain ⟨-, rfl⟩ := append?_eq_some_iff.1 ha
    rw [List.length_append]
    exact ⟨size?_grow ih.1 _, fun _ => isSome_left_grow _ _⟩

/-- The tree of no leaves is empty. -/
theorem eq_empty (ht : Holds h t []) : t = CommitmentTree.empty := by
  generalize hl : ([] : List α) = leaves at ht
  cases ht with
  | empty => rfl
  | append _ _ => simp at hl

/-- The last leaf was appended last. -/
theorem concat_cases (ht : Holds h t (leaves ++ [leaf])) :
    ∃ t₀, Holds h t₀ leaves ∧ t₀.append? h leaf = some t := by
  generalize hl : leaves ++ [leaf] = all at ht
  cases ht with
  | empty => simp at hl
  | append ht₀ ha =>
    obtain ⟨rfl, hleaf⟩ := List.append_inj' hl rfl
    obtain rfl := List.singleton_inj.1 hleaf
    exact ⟨_, ht₀, ha⟩

/-- The leaves determine the tree. -/
theorem unique (ht : Holds h t leaves) : ∀ {t'}, Holds h t' leaves → t = t' := by
  induction ht with
  | empty => exact fun ht' => ht'.eq_empty.symm
  | append _ ha ih =>
    intro t' ht'
    obtain ⟨t₀, ht₀, ha'⟩ := ht'.concat_cases
    obtain rfl := ih ht₀
    exact Option.some.inj (ha.symm.trans ha')

/-- The tree has come by a tree of the first leaves. -/
theorem exists_prefix {more : List α} (ht : Holds h t (leaves ++ more)) :
    ∃ t₀, Holds h t₀ leaves := by
  generalize hall : leaves ++ more = all at ht
  induction ht generalizing more with
  | empty =>
    obtain ⟨rfl, -⟩ := List.append_eq_nil_iff.1 hall
    exact ⟨_, .empty⟩
  | @append t t' all leaf ht ha ih =>
    rcases List.eq_nil_or_concat more with rfl | ⟨more', last, rfl⟩
    · rw [List.append_nil] at hall
      subst hall
      exact ⟨t', .append ht ha⟩
    · rw [List.concat_eq_append, ← List.append_assoc] at hall
      exact ih (List.append_inj' hall rfl).1

/-- A tree of leaves, of which more are in the tree, takes the next of them. -/
theorem exists_next {leaf : α} {more : List α} {last : CommitmentTree α} (ht : Holds h t leaves)
    (hlast : Holds h last (leaves ++ leaf :: more)) :
    ∃ t', Holds h t' (leaves ++ [leaf]) ∧ t.append? h leaf = some t' := by
  rw [List.append_cons] at hlast
  obtain ⟨t', ht'⟩ := hlast.exists_prefix
  obtain ⟨t₀, ht₀, ha⟩ := ht'.concat_cases
  obtain rfl := ht.unique ht₀
  exact ⟨t', ht', ha⟩

/-- Leaves that a tree takes one after the other are leaves of what comes of it. -/
theorem appendAll : ∀ (more : List α) {t : CommitmentTree α} {leaves : List α}, Holds h t leaves →
    (t.appendAll h more).2 = true → Holds h (t.appendAll h more).1 (leaves ++ more)
  | [], t, leaves, ht, _ => by
    rw [List.append_nil]
    exact ht
  | leaf :: rest, t, leaves, ht, hall => by
    unfold CommitmentTree.appendAll at hall ⊢
    cases ha : t.append? h leaf with
    | none =>
      rw [ha] at hall
      cases hall
    | some t' =>
      rw [ha] at hall
      rw [List.append_cons]
      exact appendAll rest (.append ht ha) hall

/-- A tree takes the leaves that a tree with more leaves has beyond its own. -/
theorem appendAll_eq : ∀ (more : List α) {t last : CommitmentTree α} {leaves : List α},
    Holds h t leaves → Holds h last (leaves ++ more) → t.appendAll h more = (last, true)
  | [], t, last, leaves, ht, hlast => by
    rw [List.append_nil] at hlast
    rw [ht.unique hlast]
    rfl
  | leaf :: rest, t, last, leaves, ht, hlast => by
    obtain ⟨t', ht', ha⟩ := ht.exists_next hlast
    unfold CommitmentTree.appendAll
    rw [ha]
    rw [List.append_cons] at hlast
    exact appendAll_eq rest ht' hlast

/-- As a tree that the leaves fit in, it is complete exactly if they fill it. -/
theorem isComplete_iff (ht : Holds h t leaves) {depth : Nat} (hd : 0 < depth)
    (hle : leaves.length ≤ width depth) :
    t.isComplete depth = true ↔ leaves.length = width depth := by
  cases hl : leaves with
  | nil =>
    subst hl
    obtain rfl := ht.eq_empty
    have := width_pos depth
    have incomplete : (CommitmentTree.empty : CommitmentTree α).isComplete depth = false := by
      simp [isComplete, CommitmentTree.empty, show depth ≠ 0 by omega]
    rw [incomplete, List.length_nil]
    simp only [Bool.false_eq_true, false_iff]
    omega
  | cons a rest =>
    rw [← hl]
    exact isComplete_iff_of_size? ht.size?.1 (ht.size?.2 (by simp [hl])) hd hle

/-- There is no room for more leaves than the tree is wide. -/
theorem length_le (ht : Holds h t leaves) : leaves.length ≤ width treeDepth := by
  induction ht with
  | empty => exact Nat.zero_le _
  | @append t t' leaves leaf ht ha ih =>
    obtain ⟨room, -⟩ := append?_eq_some_iff.1 ha
    have short : leaves.length ≠ width treeDepth := by
      rw [ne_eq, ← ht.isComplete_iff (by decide) ih, room]
      exact Bool.false_ne_true
    rw [List.length_append, List.length_singleton]
    omega

/-- There is room for as many. -/
theorem exists_extended : ∀ (more : List α) {t : CommitmentTree α} {leaves : List α},
    Holds h t leaves → (leaves ++ more).length ≤ width treeDepth → ∃ t', Holds h t' (leaves ++ more)
  | [], t, leaves, ht, _ => ⟨t, by rwa [List.append_nil]⟩
  | leaf :: rest, t, leaves, ht, hle => by
    have room : t.isComplete treeDepth = false := by
      rw [← Bool.not_eq_true, ht.isComplete_iff (by decide) ht.length_le]
      rw [List.length_append, List.length_cons] at hle
      omega
    rw [List.append_cons] at hle ⊢
    exact exists_extended rest (.append ht (append?_eq_some_iff.2 ⟨room, rfl⟩)) hle

/-- Once more leaves have come, the root is the one over all of them. -/
theorem rootThrough (ht : Holds h t leaves) {depth : Nat} (hd : 0 < depth) :
    ∀ later : List α, leaves.length + later.length ≤ width depth →
      t.rootThrough h depth later = subtree h depth (leaves ++ later) := by
  induction ht with
  | empty =>
    intro later _
    obtain ⟨m, rfl⟩ : ∃ m, depth = m + 1 := ⟨depth - 1, by omega⟩
    have climbed := climbThrough_pad_nil (h := h) later m 1
    rw [Nat.add_comm 1 m] at climbed
    rw [List.nil_append, ← climbed]
    show climbThrough h 1 _ _ ((later.drop 1).drop 1) = _
    rw [List.drop_drop]
    rfl
  | @append t t' leaves leaf ht₀ ha ih =>
    intro later hle
    obtain ⟨-, rfl⟩ := append?_eq_some_iff.1 ha
    rw [List.length_append, List.length_singleton] at hle
    have room : t.isComplete depth = false := by
      rw [← Bool.not_eq_true, ht₀.isComplete_iff hd (by omega)]
      omega
    rw [rootThrough_grow hd room, ih _ (by rw [List.length_cons]; omega), List.append_assoc]
    rfl

/-- As a tree that the leaves fit in, its root is the root over them. -/
theorem rootWith (ht : Holds h t leaves) {depth : Nat} (hd : 0 < depth)
    (hle : leaves.length ≤ width depth) : t.rootWith h depth [] = subtree h depth leaves := by
  have filled : Fills h (t.missing depth) [] [] := by simp [Fills]
  rw [rootWith_eq_rootThrough filled, ht.rootThrough hd [] (by simpa using hle), List.append_nil]

/-- The root of the tree is the root over its leaves. -/
theorem root (ht : Holds h t leaves) : t.root h = subtree h treeDepth leaves :=
  ht.rootWith (by decide) ht.length_le

end Holds
end CommitmentTree
end ShieldedLedger
