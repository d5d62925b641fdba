import ShieldedLedger.Proofs.Witnesses.Follower
import ShieldedLedger.Proofs.Witnesses.Notes

/-!
# A chain update that stops halfway

Connecting a block stops at the first leaf that the tree, or the newest witness of a note, has no
room for, and what it has changed so far stays changed. `WalkedTo` says what that is once some of
the leaves are taken: they are in the tree, one more witness is accounted for unless the limit was
reached, and of a note `NoteWalked` says what the leaves have made of it, in terms of the note, the
tree before the block and these leaves alone. Opening the witnesses brings it about for no leaves
(`walkedTo_openWitnesses`), and each leaf that is taken adds itself
(`WalkedTo.appendBlockLeaf`). The leaf at which the walk stops is taken by nothing, or by the tree
and the notes before the one that has no room for it (`WalkedTo.stop`).
-/

namespace ShieldedLedger

/-! ## Leaves that are all taken -/

section
variable {α : Type} {h : NodeHash α}

/-- A tree that takes some leaves and then one more takes these in a row. -/
theorem CommitmentTree.appendAll_append_singleton :
    ∀ {leaves : List α} {t t' t'' : CommitmentTree α} {leaf : α},
      t.appendAll h leaves = (t', true) → t'.append? h leaf = some t'' →
      t.appendAll h (leaves ++ [leaf]) = (t'', true)
  | [], t, t', t'', leaf, hall, ha => by
    obtain rfl : t = t' := congrArg Prod.fst hall
    simp only [List.nil_append, CommitmentTree.appendAll, ha]
  | first :: rest, t, t', t'', leaf, hall, ha => by
    simp only [List.cons_append, CommitmentTree.appendAll] at hall ⊢
    split at hall
    · cases hall
    · exact appendAll_append_singleton hall ha

/-- Takes note of the next leaves of the tree; none if there is no room for one of them. -/
def Witness.appendAll? (h : NodeHash α) (w : Witness α) (leaves : List α) : Option (Witness α) :=
  leaves.foldlM (fun w leaf => w.append? h leaf) w

/-- A witness that takes a list of leaves, and then one more, takes the longer list. -/
theorem Witness.appendAll?_append_singleton {w w' w'' : Witness α} {leaves : List α} {leaf : α}
    (hall : w.appendAll? h leaves = some w') (ha : w'.append? h leaf = some w'') :
    w.appendAll? h (leaves ++ [leaf]) = some w'' := by
  unfold Witness.appendAll? at hall ⊢
  simp [List.foldlM_append, hall, ha]

end

/-! ## What the leaves make of a note -/

namespace NoteData

variable {d d' : NoteData}

/-- Without its witnesses, a note is not changed by opening one. -/
theorem clearWitnesses_openWitness (limit : Nat) (d : NoteData) :
    (d.openWitness limit).clearWitnesses = d.clearWitnesses := by
  unfold openWitness
  split <;> rfl

/-- Without its witnesses, a note is not changed by a leaf that its witness takes. -/
theorem clearWitnesses_appendLeaf? {leaf : Hash256} (h : d.appendLeaf? leaf = some d') :
    d'.clearWitnesses = d.clearWitnesses := by
  unfold appendLeaf? at h
  split at h
  · rw [Option.some.inj h]
  · obtain ⟨_, -, rfl⟩ := Option.map_eq_some_iff.1 h
    rfl

end NoteData

/-- What a note that is behind `height` has become once the leaves in `taken`, the first ones of the
block at that height, are in the tree that was `tree` before. -/
inductive NoteWalked (height : Int) (limit : Nat) (tree : NoteTree) (location : NoteLocation)
    (taken : List NoteLeaf) (d : NoteData) : NoteData → Prop
  /-- None of the leaves is its own, and a note without witnesses is left as it is. -/
  | bare (others : location ∉ taken.map (·.1)) (unwitnessed : d.witnesses = []) :
    NoteWalked height limit tree location taken d d
  /-- None of the leaves is its own, and a copy of its newest witness has taken them. -/
  | grown {newest : NoteWitness} {older : List NoteWitness} {w : NoteWitness}
    (others : location ∉ taken.map (·.1)) (witnessed : d.witnesses = newest :: older)
    (took : newest.appendAll? sproutHash (commitmentsOf taken) = some w) :
    NoteWalked height limit tree location taken d
      { d with witnesses := (w :: newest :: older).take limit }
  /-- A leaf of its own gave it a witness, its only one, which has taken those after it. -/
  | found {before after : List NoteLeaf} {commitment : Hash256} {t : NoteTree} {w : NoteWitness}
    (own : taken = before ++ (location, commitment) :: after)
    (others : location ∉ after.map (·.1))
    (grown : tree.appendAll sproutHash (commitmentsOf before ++ [commitment]) = (t, true))
    (took : (Witness.ofTree t).appendAll? sproutHash (commitmentsOf after) = some w) :
    NoteWalked height limit tree location taken d
      { d with witnesses := [w], witnessHeight := height - 1 }

namespace NoteWalked

variable {height : Int} {limit : Nat} {tree : NoteTree} {location : NoteLocation}
  {taken : List NoteLeaf} {d d₁ : NoteData}

/-- Before any leaf is taken, the walk has opened a witness. -/
theorem openWitness (height : Int) (limit : Nat) (tree : NoteTree) (location : NoteLocation)
    (d : NoteData) : NoteWalked height limit tree location [] d (d.openWitness limit) := by
  unfold NoteData.openWitness
  split
  · next hw => exact .bare List.not_mem_nil hw
  · next hw => exact .grown List.not_mem_nil hw rfl

/-- The walk changes nothing about a note but its witnesses. -/
theorem clearWitnesses (hd : NoteWalked height limit tree location taken d d₁) :
    d₁.clearWitnesses = d.clearWitnesses := by
  cases hd <;> rfl

/-- A note that was behind the height stays behind it until the update is over. -/
theorem isBehind (hd : NoteWalked height limit tree location taken d d₁)
    (hbehind : d.isBehind height = true) : d₁.isBehind height = true := by
  cases hd with
  | bare => exact hbehind
  | grown => exact hbehind
  | found =>
    refine decide_eq_true ?_
    show height - 1 < height
    omega

/-- The next leaf is not the note's own. -/
theorem appendLeaf? (hd : NoteWalked height limit tree location taken d d₁) (hlimit : 0 < limit)
    {leaf : NoteLeaf} (hother : location ≠ leaf.1) {d₂ : NoteData}
    (htook : d₁.appendLeaf? leaf.2 = some d₂) :
    NoteWalked height limit tree location (taken ++ [leaf]) d d₂ := by
  have others : ∀ {leaves : List NoteLeaf}, location ∉ leaves.map (·.1) →
      location ∉ (leaves ++ [leaf]).map (·.1) := by
    intro leaves hnot
    simp only [List.map_append, List.map_cons, List.map_nil, List.mem_append, List.mem_singleton]
    exact not_or.2 ⟨hnot, hother⟩
  unfold NoteData.appendLeaf? at htook
  cases hd with
  | bare hnot hw =>
    rw [hw] at htook
    obtain rfl := Option.some.inj htook
    exact .bare (others hnot) hw
  | @grown newest older w hnot hw took =>
    cases limit with
    | zero => exact absurd hlimit (Nat.lt_irrefl 0)
    | succ limit =>
    obtain ⟨w', ha, rfl⟩ := Option.map_eq_some_iff.1 htook
    have took' := Witness.appendAll?_append_singleton took ha
    exact .grown (others hnot) hw (by rwa [commitmentsOf_append])
  | @found before after commitment t w own hnot grown took =>
    obtain ⟨w', ha, rfl⟩ := Option.map_eq_some_iff.1 htook
    have took' := Witness.appendAll?_append_singleton took ha
    have own' : taken ++ [leaf] = before ++ (location, commitment) :: (after ++ [leaf]) := by
      rw [own, List.append_assoc, List.cons_append]
    exact .found own' (others hnot) grown (by rwa [commitmentsOf_append])

/-- The next leaf is the note's own, whatever its witnesses have taken. -/
theorem withFirstWitness (hd : NoteWalked height limit tree location taken d d₁)
    {commitment : Hash256} {t : NoteTree}
    (hgrown : tree.appendAll sproutHash (commitmentsOf taken ++ [commitment]) = (t, true))
    {d₂ : NoteData} (htook : d₁.appendLeaf? commitment = some d₂) :
    NoteWalked height limit tree location (taken ++ [(location, commitment)]) d
      (d₂.withFirstWitness (Witness.ofTree t) height) := by
  have same : d₂.clearWitnesses = d.clearWitnesses :=
    (NoteData.clearWitnesses_appendLeaf? htook).trans hd.clearWitnesses
  show NoteWalked height limit tree location _ d
    { d₂.clearWitnesses with witnesses := [Witness.ofTree t], witnessHeight := height - 1 }
  rw [same]
  exact .found rfl List.not_mem_nil hgrown rfl

end NoteWalked

namespace Ledger

/-! ## The ledger but for its witnesses -/

section
variable {l : Ledger}

/-- Without witnesses, the ledger is not changed by what changes nothing but witnesses in its
notes. -/
theorem clearWitnesses_mapNotes {g : NoteData → NoteData}
    (hg : ∀ d, (g d).clearWitnesses = d.clearWitnesses) :
    (l.mapNotes g).clearWitnesses = l.clearWitnesses := by
  unfold clearWitnesses Ledger.mapNotes mapEntries
  simp only [SortedMap.mapValues_mapValues, Entry.clearWitnesses, hg]

/-- Without witnesses, the ledger is not changed by what changes nothing but witnesses in one
note. -/
theorem clearWitnesses_modifyNote {location : NoteLocation} {g : NoteData → NoteData}
    (hg : ∀ d, (g d).clearWitnesses = d.clearWitnesses) :
    (l.modifyNote location g).clearWitnesses = l.clearWitnesses := by
  have entry : ∀ e : Entry, Entry.clearWitnesses { e with notes := e.notes.modify location g } =
      e.clearWitnesses := fun e =>
    congrArg (fun notes => { e with notes }) (e.notes.mapValues_modify_of_eq location hg)
  exact congrArg (fun entries => { l with entries, cacheSize := 0 })
    (l.entries.mapValues_modify_of_eq location.hash entry)

/-- Without witnesses, the ledger is not changed by a walk that changes nothing but witnesses. -/
theorem clearWitnesses_mapNotesAccum {σ : Type} {g : σ → NoteData → NoteData × σ}
    (hg : ∀ s d, (g s d).1.clearWitnesses = d.clearWitnesses) (s : σ) :
    (l.mapNotesAccum g s).1.clearWitnesses = l.clearWitnesses := by
  refine congrArg (fun entries => { l with entries, cacheSize := 0 })
    (l.entries.mapValues_mapAccum_of_eq (fun s _ e => ?_) s)
  exact congrArg (fun notes => { e with notes })
    (e.notes.mapValues_mapAccum_of_eq (fun s _ d => hg s d) s)

end

/-! ## One leaf and the notes -/

section
variable {l : Ledger} {location : NoteLocation} {d : NoteData}

/-- What a walk over all notes does to an entry. -/
def walkEntry {σ : Type} (f : σ → NoteData → NoteData × σ) (s : σ) (e : Entry) : Entry × σ :=
  let (notes, s) := e.notes.mapAccum (fun s _ d => f s d) s
  ({ e with notes }, s)

/-- What the walk of a leaf does to a note, `ok` telling whether the notes before took the leaf. -/
def takeLeaf (height : Int) (leaf : Hash256) (ok : Bool) (d : NoteData) : NoteData × Bool :=
  if ok && d.isBehind height then
    match d.appendLeaf? leaf with
    | some d => (d, true)
    | none => (d, false)
  else (d, ok)

/-- Handing a leaf to the notes is a walk over them. -/
theorem appendToNotes_eq_mapNotesAccum (l : Ledger) (height : Int) (leaf : Hash256) :
    l.appendToNotes height leaf = l.mapNotesAccum (takeLeaf height leaf) true := rfl

/-- A note is passed over because it is not behind or a note before it had no room for the leaf, or
it has no room itself, or it takes the leaf. -/
theorem takeLeaf_cases (height : Int) (leaf : Hash256) (ok : Bool) (d : NoteData) :
    (ok = true → d.isBehind height = false) ∧ takeLeaf height leaf ok d = (d, ok) ∨
      ok = true ∧ d.isBehind height = true ∧
        (d.appendLeaf? leaf = none ∧ takeLeaf height leaf ok d = (d, false) ∨
          ∃ d', d.appendLeaf? leaf = some d' ∧ takeLeaf height leaf ok d = (d', true)) := by
  cases ok with
  | false => exact .inl ⟨nofun, rfl⟩
  | true =>
    cases hbehind : d.isBehind height with
    | false => exact .inl ⟨fun _ => rfl, by simp [takeLeaf, hbehind]⟩
    | true =>
      refine .inr ⟨rfl, rfl, ?_⟩
      cases htook : d.appendLeaf? leaf with
      | none => exact .inl ⟨rfl, by simp [takeLeaf, hbehind, htook]⟩
      | some d' => exact .inr ⟨d', rfl, by simp [takeLeaf, hbehind, htook]⟩

/-- A walk over the notes changes each of them, in a state of which the same is true as in the
end. -/
theorem exists_note?_mapNotesAccum {σ : Type} {P : σ → Prop} {f : σ → NoteData → NoteData × σ}
    (hback : ∀ s d, P (f s d).2 → P s) {s : σ} (hlast : P (l.mapNotesAccum f s).2)
    (hd : l.note? location = some d) :
    ∃ s', P (f s' d).2 ∧ (l.mapNotesAccum f s).1.note? location = some (f s' d).1 := by
  obtain ⟨e, he, hd⟩ := Option.bind_eq_some_iff.1 hd
  obtain ⟨s₁, -, hlast₁, he₁⟩ := SortedMap.exists_get?_mapAccum (f := fun s _ e => walkEntry f s e)
    (fun s _ e => SortedMap.of_mapAccum (m := e.notes) fun s _ d => hback s d) hlast he
  obtain ⟨s₂, -, hlast₂, hd₂⟩ := SortedMap.exists_get?_mapAccum (fun s _ d => hback s d) hlast₁ hd
  exact ⟨s₂, hlast₂, Option.bind_eq_some_iff.2 ⟨_, he₁, hd₂⟩⟩

/-- What is not true any more after a walk over the notes was lost at one of them. -/
theorem exists_mem_mapNotesAccum {σ : Type} {P : σ → Prop} {f : σ → NoteData → NoteData × σ}
    {s : σ} (hs : P s) (hlast : ¬ P (l.mapNotesAccum f s).2) :
    ∃ s' d, P s' ∧ ¬ P (f s' d).2 ∧ (f s' d).1 ∈ (l.mapNotesAccum f s).1.notes := by
  obtain ⟨s₁, -, e, hs₁, hlost₁, hmem₁⟩ := SortedMap.exists_mem_mapAccum
    (f := fun s _ e => walkEntry f s e) hs hlast
  obtain ⟨s₂, -, d, hs₂, hlost₂, hmem₂⟩ := SortedMap.exists_mem_mapAccum hs₁ hlost₁
  exact ⟨s₂, d, hs₂, hlost₂, List.mem_flatMap.2 ⟨_, hmem₁, hmem₂⟩⟩

/-- What a leaf does to a note, unless a note before it takes no more. -/
theorem note?_appendToNotes (height : Int) (leaf : Hash256) (hd : l.note? location = some d) :
    ∃ d', (l.appendToNotes height leaf).1.note? location = some d' ∧
      (d' = d ∨ d.isBehind height = true ∧ d.appendLeaf? leaf = some d') ∧
      ((l.appendToNotes height leaf).2 = true → d.isBehind height = true →
        d.appendLeaf? leaf = some d') := by
  have hback : ∀ ok d, (takeLeaf height leaf ok d).2 = true → ok = true := by
    intro ok d h
    rcases takeLeaf_cases height leaf ok d with ⟨-, hstep⟩ | ⟨hok, -⟩
    · rwa [hstep] at h
    · exact hok
  rw [appendToNotes_eq_mapNotesAccum]
  obtain ⟨ok, hok, hd'⟩ := exists_note?_mapNotesAccum (s := true)
    (P := fun ok => (l.mapNotesAccum (takeLeaf height leaf) true).2 = true → ok = true)
    (fun ok d hlast hall => hback ok d (hlast hall)) id hd
  refine ⟨_, hd', ?_⟩
  rcases takeLeaf_cases height leaf ok d with
    ⟨hnot, hstep⟩ | ⟨-, hbehind, ⟨-, hstep⟩ | ⟨d', htook, hstep⟩⟩
  · rw [hstep] at hok ⊢
    refine ⟨.inl rfl, fun hall hbehind => ?_⟩
    rw [hnot (hok hall)] at hbehind
    cases hbehind
  · rw [hstep] at hok ⊢
    exact ⟨.inl rfl, fun hall => nomatch hok hall⟩
  · rw [hstep]
    exact ⟨.inr ⟨hbehind, htook⟩, fun _ _ => htook⟩

/-- A leaf that is not taken by all notes is not taken by one of those behind the height. -/
theorem exists_full_of_appendToNotes {height : Int} {leaf : Hash256}
    (h : (l.appendToNotes height leaf).2 = false) :
    ∃ d ∈ (l.appendToNotes height leaf).1.notes,
      d.isBehind height = true ∧ d.appendLeaf? leaf = none := by
  rw [appendToNotes_eq_mapNotesAccum] at h ⊢
  obtain ⟨ok, d, rfl, hlost, hmem⟩ := exists_mem_mapNotesAccum (P := (· = true)) rfl
    (ne_true_of_eq_false h)
  rcases takeLeaf_cases height leaf true d with
    ⟨-, hstep⟩ | ⟨-, hbehind, ⟨hfull, hstep⟩ | ⟨d', -, hstep⟩⟩
  · rw [hstep] at hlost
    exact absurd rfl hlost
  · rw [hstep] at hmem
    exact ⟨d, hmem, hbehind, hfull⟩
  · rw [hstep] at hlost
    exact absurd rfl hlost

/-- Handing a leaf to the notes changes nothing but witnesses. -/
theorem clearWitnesses_appendToNotes (l : Ledger) (height : Int) (leaf : Hash256) :
    (l.appendToNotes height leaf).1.clearWitnesses = l.clearWitnesses := by
  rw [appendToNotes_eq_mapNotesAccum]
  refine clearWitnesses_mapNotesAccum (fun ok d => ?_) true
  rcases takeLeaf_cases height leaf ok d with
    ⟨-, hstep⟩ | ⟨-, -, ⟨-, hstep⟩ | ⟨d', htook, hstep⟩⟩ <;> rw [hstep]
  exact NoteData.clearWitnesses_appendLeaf? htook

/-- Taking a leaf leaves the cache size as it is. -/
theorem cacheSize_afterLeaf (l : Ledger) (height : Int) (leaf : NoteLeaf) (tree : NoteTree) :
    (l.afterLeaf height leaf tree).cacheSize = l.cacheSize := by
  unfold afterLeaf
  split <;> rfl

/-- Taking a leaf changes nothing but witnesses. -/
theorem clearWitnesses_afterLeaf (l : Ledger) (height : Int) (leaf : NoteLeaf) (tree : NoteTree) :
    (l.afterLeaf height leaf tree).clearWitnesses = l.clearWitnesses := by
  unfold afterLeaf
  split
  · refine (clearWitnesses_modifyNote fun d => ?_).trans (clearWitnesses_appendToNotes l height _)
    rfl
  · exact clearWitnesses_appendToNotes l height _

/-- What a leaf does to a note that all notes have room for. -/
theorem note?_afterLeaf {height : Int} {leaf : NoteLeaf} (tree : NoteTree)
    (hall : (l.appendToNotes height leaf.2).2 = true) (hd : l.note? location = some d) :
    ∃ d', (l.afterLeaf height leaf tree).note? location = some d' ∧
      (d.isBehind height = false → d' = d) ∧
      (d.isBehind height = true → ∃ d₁, d.appendLeaf? leaf.2 = some d₁ ∧
        d' = if location = leaf.1 then d₁.withFirstWitness (Witness.ofTree tree) height
          else d₁) := by
  obtain ⟨d₁, hd₁, hleft, htook⟩ := note?_appendToNotes height leaf.2 hd
  have ours : location = leaf.1 → l.needsWitness leaf.1 height = d.isBehind height := by
    rintro rfl
    unfold needsWitness
    rw [hd, Option.any_some]
  unfold afterLeaf
  cases hbehind : d.isBehind height with
  | false =>
    obtain rfl : d₁ = d := by
      rcases hleft with rfl | ⟨h, -⟩
      · rfl
      · rw [hbehind] at h
        cases h
    refine ⟨d₁, ?_, fun _ => rfl, nofun⟩
    split
    · next hours =>
      have other : location ≠ leaf.1 := by
        intro hown
        rw [ours hown, hbehind] at hours
        cases hours
      rwa [note?_modifyNote, if_neg other]
    · exact hd₁
  | true =>
    refine ⟨_, ?_, nofun, fun _ => ⟨d₁, htook hall hbehind, rfl⟩⟩
    by_cases hown : location = leaf.1
    · rw [if_pos hown, ours hown, hbehind, if_pos rfl, note?_modifyNote, if_pos hown, hd₁]
      rfl
    · rw [if_neg hown]
      split
      · rwa [note?_modifyNote, if_neg hown]
      · exact hd₁

end

/-! ## The walk over the leaves -/

/-- What connecting a block at `height` has made of `start` once the leaves in `taken`, the first
ones of the block, are taken. -/
structure WalkedTo (height : Int) (start : TipState) (taken : List NoteLeaf) (s : TipState) :
    Prop where
  /-- The tree has taken these leaves. -/
  tree : start.tree.appendAll sproutHash (commitmentsOf taken) = (s.tree, true)
  /-- One more witness is accounted for, unless the limit was reached. -/
  cacheSize : s.ledger.cacheSize = (start.ledger.openWitnesses height).cacheSize
  /-- But for witnesses, nothing has changed. -/
  cleared : s.ledger.clearWitnesses = start.ledger.clearWitnesses
  /-- Every note that is behind has taken the leaves, and the others are as they were. -/
  notes : ∀ location d, start.ledger.note? location = some d →
    ∃ d', s.ledger.note? location = some d' ∧ (d.isBehind height = false → d' = d) ∧
      (d.isBehind height = true →
        NoteWalked height start.ledger.settings.witnessLimit start.tree location taken d d')

/-- There is no room for a leaf; and what the tree has taken beyond the leaves before it. -/
inductive NoRoom (height : Int) (leaf : NoteLeaf) (s : TipState) : (extra : List NoteLeaf) → Prop
  /-- The tree has no room for the leaf. -/
  | inTree (full : s.tree.append? sproutHash leaf.2 = none) : NoRoom height leaf s []
  /-- The newest witness of a note that is behind has none, while the tree has taken the leaf. -/
  | inNote {d : NoteData} (held : d ∈ s.ledger.notes) (behind : d.isBehind height = true)
    (full : d.appendLeaf? leaf.2 = none) : NoRoom height leaf s [leaf]

section
variable {height : Int} {start s s' : TipState} {taken : List NoteLeaf} {leaf : NoteLeaf}

/-- Opening the witnesses is the walk before its first leaf. -/
theorem walkedTo_openWitnesses (height : Int) (start : TipState) :
    WalkedTo height start [] ⟨start.ledger.openWitnesses height, start.tree⟩ where
  tree := rfl
  cacheSize := rfl
  cleared := clearWitnesses_mapNotes (l := start.ledger) fun d => by
    split
    · exact d.clearWitnesses_openWitness _
    · rfl
  notes location d hd := by
    have opened : (start.ledger.openWitnesses height).note? location =
        some (if d.isBehind height then d.openWitness start.ledger.settings.witnessLimit else d) :=
      (note?_mapNotes start.ledger _ location).trans (by rw [hd]; rfl)
    refine ⟨_, opened, fun hnot => ?_, fun hbehind => ?_⟩
    · rw [hnot, if_neg Bool.false_ne_true]
    · rw [hbehind, if_pos rfl]
      exact .openWitness _ _ _ _ _

/-- One more leaf is taken. -/
theorem WalkedTo.appendBlockLeaf (hs : WalkedTo height start taken s)
    (h : Ledger.appendBlockLeaf height leaf s = (.ok (), s')) :
    WalkedTo height start (taken ++ [leaf]) s' := by
  rcases appendBlockLeaf_cases height leaf s with
    ⟨-, hstep⟩ | ⟨tree, ha, ⟨-, hstep⟩ | ⟨hall, hstep⟩⟩ <;> rw [hstep] at h
  · cases h
  · cases h
  obtain rfl := congrArg Prod.snd h
  have grown := CommitmentTree.appendAll_append_singleton hs.tree ha
  refine ⟨by rwa [commitmentsOf_append], ?_, (clearWitnesses_afterLeaf _ _ _ _).trans hs.cleared,
    fun location d hd => ?_⟩
  · rw [← hs.cacheSize]
    exact cacheSize_afterLeaf _ _ _ _
  obtain ⟨d₁, hd₁, hsame, hwalked⟩ := hs.notes location d hd
  obtain ⟨d', hd', hsame', hgrown⟩ := note?_afterLeaf tree hall hd₁
  refine ⟨d', hd', fun hnot => ?_, fun hbehind => ?_⟩
  · obtain rfl := hsame hnot
    exact hsame' hnot
  · have walked := hwalked hbehind
    obtain ⟨d₂, htook, rfl⟩ := hgrown (walked.isBehind hbehind)
    split
    · next hown =>
      subst hown
      exact walked.withFirstWitness grown htook
    · next hother => exact walked.appendLeaf? (Settings.witnessLimit_pos _) hother htook

/-- All leaves of a walk that does not stop are taken. -/
theorem WalkedTo.forM {more : List NoteLeaf} (hs : WalkedTo height start taken s)
    (h : more.forM (Ledger.appendBlockLeaf height) s = (.ok (), s')) :
    WalkedTo height start (taken ++ more) s' :=
  of_forM_ok (R := WalkedTo height start) (fun _ _ _ _ hs h => hs.appendBlockLeaf h) hs h

/-- The leaf at which a walk stops is taken by nothing, or by the tree and some notes. -/
theorem WalkedTo.stop (hs : WalkedTo height start taken s) {e : Failure}
    (h : Ledger.appendBlockLeaf height leaf s = (.error e, s')) :
    ∃ extra, NoRoom height leaf s' extra ∧
      start.tree.appendAll sproutHash (commitmentsOf (taken ++ extra)) = (s'.tree, true) ∧
      s'.ledger.cacheSize = s.ledger.cacheSize ∧
      s'.ledger.clearWitnesses = s.ledger.clearWitnesses ∧
      ∀ location d, s.ledger.note? location = some d → ∃ d', s'.ledger.note? location = some d' ∧
        (d' = d ∨ d.isBehind height = true ∧ ∃ last ∈ extra, d.appendLeaf? last.2 = some d') := by
  rcases appendBlockLeaf_cases height leaf s with
    ⟨hfull, hstep⟩ | ⟨tree, ha, ⟨hsome, hstep⟩ | ⟨-, hstep⟩⟩ <;> rw [hstep] at h
  · obtain rfl := congrArg Prod.snd h
    refine ⟨[], .inTree hfull, ?_, rfl, rfl, fun location d hd => ⟨d, hd, .inl rfl⟩⟩
    rw [List.append_nil]
    exact hs.tree
  · obtain rfl := congrArg Prod.snd h
    obtain ⟨full, hheld, hbehind, hfull⟩ := exists_full_of_appendToNotes hsome
    refine ⟨[leaf], .inNote hheld hbehind hfull, ?_, rfl, clearWitnesses_appendToNotes _ _ _,
      fun location d hd => ?_⟩
    · rw [commitmentsOf_append]
      exact CommitmentTree.appendAll_append_singleton hs.tree ha
    · obtain ⟨d', hd', hleft, -⟩ := note?_appendToNotes height leaf.2 hd
      refine ⟨d', hd', hleft.imp_right fun ⟨hbehind, htook⟩ => ⟨hbehind, leaf, ?_, htook⟩⟩
      exact List.mem_singleton_self leaf
  · cases h

end

/-- A block is refused only because there is no room for one of its leaves, and then the update has
stopped at that leaf. The tree has taken the leaves before it, and the leaf too if it is a note that
has no room for it; one more witness is accounted for, unless the limit was reached; the notes that
are behind have taken what the tree has, or all of that but the leaf. Nothing else has changed. -/
theorem chainTip_stopped {index : BlockIndex} {block : Block} {s s' : TipState} {e : LedgerError}
    (h : chainTip index block true s = (.error (.error e), s')) :
    e = .treeFull ∧ ∃ taken leaf rest extra, block.noteLeaves = taken ++ leaf :: rest ∧
      NoRoom index.height leaf s' extra ∧
      s.tree.appendAll sproutHash (commitmentsOf (taken ++ extra)) = (s'.tree, true) ∧
      s'.ledger.cacheSize = (if s.ledger.cacheSize < s.ledger.settings.witnessLimit
        then s.ledger.cacheSize + 1 else s.ledger.cacheSize) ∧
      s'.ledger.clearWitnesses = s.ledger.clearWitnesses ∧
      ∀ location d, s.ledger.note? location = some d →
        ∃ d', s'.ledger.note? location = some d' ∧ (d.isBehind index.height = false → d' = d) ∧
          (d.isBehind index.height = true → ∃ d₁,
            NoteWalked index.height s.ledger.settings.witnessLimit s.tree location taken d d₁ ∧
            (d' = d₁ ∨ ∃ last ∈ extra, d₁.appendLeaf? last.2 = some d')) := by
  unfold chainTip at h
  rw [if_pos rfl] at h
  rcases connectBlock_cases index.height block s with
    ⟨fault, -, hresult⟩ | ⟨-, outcome, s₁, hwalk, ⟨-, hresult⟩ | ⟨rfl, hresult⟩⟩ <;>
    rw [hresult] at h <;> cases h
  obtain ⟨taken, leaf, rest, s₁, hleaves, htaken, hlast⟩ := exists_of_forM_error hwalk
  have walked := (walkedTo_openWitnesses index.height s).forM htaken
  rw [List.nil_append] at walked
  obtain ⟨extra, hroom, htree, hsize, hcleared, hnotes⟩ := walked.stop hlast
  refine ⟨rfl, taken, leaf, rest, extra, hleaves, hroom, htree, hsize.trans walked.cacheSize,
    hcleared.trans walked.cleared, fun location d hd => ?_⟩
  obtain ⟨d₁, hd₁, hsame, hwalked⟩ := walked.notes location d hd
  obtain ⟨d', hd', hleft⟩ := hnotes location d₁ hd₁
  refine ⟨d', hd', fun hnot => ?_, fun hbehind => ⟨d₁, hwalked hbehind, ?_⟩⟩
  · obtain rfl := hsame hnot
    rcases hleft with rfl | ⟨hbehind, -⟩
    · rfl
    · rw [hnot] at hbehind
      cases hbehind
  · exact hleft.imp_right fun ⟨_, htook⟩ => htook

end Ledger

/-! ## A block with one commitment too many -/

namespace Follower

/-- A tree that has room for one more leaf. -/
def lastPlace : NoteTree :=
  ⟨some Bytes.zero, none, List.replicate (treeDepth - 1) (some Bytes.zero)⟩

/-- A block with two commitments that are not ours. -/
def foreignNotes : Block := blockOf
  { TxBody.blank with
    lockTime := 1
    joinSplits := [{ JoinSplit.blank false with
      commitments := (Bytes.filled 32 0x21, Bytes.filled 32 0x22) }] }.freeze

/-- The block is connected to the ledger with our note, and the tree has room for the first of its
commitments. -/
def overfull : Except Failure Unit × TipState :=
  Ledger.chainTip ⟨1, foreignNotes.hash, 0⟩ foreignNotes true ⟨confirmed.2.ledger, lastPlace⟩

/-- It has no room for the second. -/
theorem refused_overfull : overfull.1 = .error (.error .treeFull) := by
  have computed : faultOf overfull.1 = none ∧ overfull.1.toOption = none := by decide +kernel
  have run : overfull = Ledger.connectBlock 1 foreignNotes ⟨confirmed.2.ledger, lastPlace⟩ := rfl
  rw [run] at computed ⊢
  rcases Ledger.connectBlock_cases 1 foreignNotes ⟨confirmed.2.ledger, lastPlace⟩ with
    ⟨fault, -, h⟩ | ⟨-, outcome, s₁, -, ⟨-, h⟩ | ⟨-, h⟩⟩ <;> rw [h] at computed ⊢
  · cases computed.1
  · cases computed.2

/-- On the state that is reached when the tree has one place left and the block two leaves, the
update stops at the second leaf with the first one taken, and the wallet is unchanged but for
witnesses. -/
theorem chainTip_stopped_overfull :
    overfull.1 = .error (.error .treeFull) ∧
      overfull.2.ledger.clearWitnesses = confirmed.2.ledger.clearWitnesses ∧
      ∃ taken leaf rest extra, foreignNotes.noteLeaves = taken ++ leaf :: rest ∧
        Ledger.NoRoom 1 leaf overfull.2 extra ∧
        lastPlace.appendAll sproutHash (commitmentsOf (taken ++ extra)) =
          (overfull.2.tree, true) := by
  obtain ⟨-, taken, leaf, rest, extra, hleaves, hroom, htree, -, hcleared, -⟩ :=
    Ledger.chainTip_stopped (eq_of_parts refused_overfull rfl : overfull = _)
  exact ⟨refused_overfull, hcleared, taken, leaf, rest, extra, hleaves, hroom, htree⟩

/-- What the first commitment has changed stays changed: it is in the tree, and our note has one
witness more, as the ledger accounts for. -/
theorem overfull_not_undone :
    Reached (fun _ => True) Settings.default Store.empty confirmed.2 ∧
      overfull.1 = .error (.error .treeFull) ∧
      (lastPlace.right = none ∧ overfull.2.tree.right = some (Bytes.filled 32 0x21)) ∧
      (confirmed.2.ledger.cacheSize = 1 ∧ overfull.2.ledger.cacheSize = 2) ∧
      confirmed.2.ledger.witnessesAt? exampleNote = some 1 ∧
      overfull.2.ledger.witnessesAt? exampleNote = some 2 := by
  refine ⟨reached_confirmed, refused_overfull, ?_⟩
  decide +kernel

end Follower
end ShieldedLedger
