/-!
# Maps with ordered keys

`SortedMap K V` is a list of entries in strictly increasing order of their keys, so a map has one
form only: two maps that answer every look-up alike are equal (`SortedMap.ext`). Each operation is
characterised through `get?` (`get?_insert`, `get?_erase`, `get?_mapValues`, `get?_filterKeys`),
and `mem_toList_iff` ties look-up to the list of entries.

`SortedSet K` is a map that holds nothing but its keys.
-/

namespace ShieldedLedger

/-- A finite map whose entries are listed in strictly increasing order of their keys. -/
structure SortedMap (K V : Type) [Ord K] where
  toList : List (K × V)
  sorted : toList.Pairwise fun a b => compare a.1 b.1 = .lt

namespace SortedMap

/-! ## Operations on lists of entries -/

namespace Entries

variable {K V W S : Type} [Ord K]

/-- The value listed for `k`. -/
def lookup (k : K) : List (K × V) → Option V
  | [] => none
  | e :: rest => if compare k e.1 = .eq then some e.2 else lookup k rest

/-- Puts `v` at `k`, in place of what was listed there. -/
def put (k : K) (v : V) : List (K × V) → List (K × V)
  | [] => [(k, v)]
  | e :: rest =>
    match compare k e.1 with
    | .lt => (k, v) :: e :: rest
    | .eq => (k, v) :: rest
    | .gt => e :: put k v rest

/-- Applies `f` to every value, smallest key first, handing a state along. -/
def thread (f : S → K → V → W × S) : S → List (K × V) → List (K × W) × S
  | s, [] => ([], s)
  | s, e :: rest =>
    let (w, s) := f s e.1 e.2
    let (rest, s) := thread f s rest
    ((e.1, w) :: rest, s)

omit [Ord K] in
/-- Threading a state through the entries leaves the keys as they are. -/
theorem keys_thread (f : S → K → V → W × S) (s : S) (l : List (K × V)) :
    (thread f s l).1.map (·.1) = l.map (·.1) := by
  induction l generalizing s with
  | nil => rfl
  | cons e rest ih => simp [thread, ih]

/-- An insertion brings in nothing but the new entry. -/
theorem mem_put {k : K} {v : V} {a : K × V} {l : List (K × V)} (h : a ∈ put k v l) :
    a = (k, v) ∨ a ∈ l := by
  induction l with
  | nil => simpa [put] using h
  | cons e rest ih =>
    unfold put at h
    split at h
    · simpa using h
    · rcases List.mem_cons.1 h with h | h
      · exact .inl h
      · exact .inr (List.mem_cons_of_mem _ h)
    · rcases List.mem_cons.1 h with h | h
      · exact .inr (h ▸ List.mem_cons_self)
      · exact (ih h).imp_right (List.mem_cons_of_mem _)

/-- An insertion keeps the entries in order. -/
theorem sorted_put [Std.TransOrd K] [Std.LawfulEqOrd K] (k : K) (v : V) {l : List (K × V)}
    (h : l.Pairwise fun a b => compare a.1 b.1 = .lt) :
    (put k v l).Pairwise fun a b => compare a.1 b.1 = .lt := by
  induction l with
  | nil => exact List.pairwise_singleton _ _
  | cons e rest ih =>
    obtain ⟨he, hr⟩ := List.pairwise_cons.1 h
    unfold put
    split
    · next hc =>
      refine List.pairwise_cons.2 ⟨fun a ha => ?_, h⟩
      rcases List.mem_cons.1 ha with rfl | ha
      · exact hc
      · exact Std.TransCmp.lt_trans hc (he a ha)
    · next hc =>
      obtain rfl := Std.LawfulEqCmp.eq_of_compare hc
      exact List.pairwise_cons.2 ⟨he, hr⟩
    · next hc =>
      refine List.pairwise_cons.2 ⟨fun a ha => ?_, ih hr⟩
      rcases mem_put ha with rfl | ha
      · exact Std.OrientedCmp.gt_iff_lt.1 hc
      · exact he a ha

/-- After an insertion the key has the new value, and all others have their old ones. -/
theorem lookup_put [Std.TransOrd K] [Std.LawfulEqOrd K] (k k' : K) (v : V) (l : List (K × V)) :
    lookup k' (put k v l) = if compare k' k = .eq then some v else lookup k' l := by
  induction l with
  | nil => rfl
  | cons e rest ih =>
    unfold put
    split
    · rfl
    · next hc =>
      obtain rfl := Std.LawfulEqCmp.eq_of_compare hc
      simp only [lookup]
      split <;> rfl
    · next hc =>
      simp only [lookup, ih]
      by_cases h1 : compare k' e.1 = .eq
      · obtain rfl := Std.LawfulEqCmp.eq_of_compare h1
        have : compare e.1 k ≠ .eq := by
          rw [Std.OrientedCmp.gt_iff_lt.1 hc]; decide
        simp [this]
      · simp [h1]

/-- A key that is not listed has no value. -/
theorem lookup_eq_none_of_forall {k : K} {l : List (K × V)}
    (h : ∀ a ∈ l, compare k a.1 ≠ .eq) : lookup k l = none := by
  induction l with
  | nil => rfl
  | cons e rest ih =>
    rw [lookup, if_neg (h e List.mem_cons_self)]
    exact ih fun a ha => h a (List.mem_cons_of_mem _ ha)

/-- What look-up finds is listed. -/
theorem mem_of_lookup [Std.LawfulEqOrd K] {k : K} {v : V} {l : List (K × V)}
    (h : lookup k l = some v) : (k, v) ∈ l := by
  induction l with
  | nil => simp [lookup] at h
  | cons e rest ih =>
    unfold lookup at h
    split at h
    · next hc =>
      obtain rfl := Std.LawfulEqCmp.eq_of_compare hc
      obtain rfl := Option.some.inj h
      exact List.mem_cons_self
    · exact List.mem_cons_of_mem _ (ih h)

/-- What is listed is found, as keys in order are distinct. -/
theorem lookup_of_mem [Std.TransOrd K] [Std.LawfulEqOrd K] {k : K} {v : V} {l : List (K × V)}
    (hs : l.Pairwise fun a b => compare a.1 b.1 = .lt) (h : (k, v) ∈ l) :
    lookup k l = some v := by
  induction l with
  | nil => cases h
  | cons e rest ih =>
    obtain ⟨he, hr⟩ := List.pairwise_cons.1 hs
    rcases List.mem_cons.1 h with rfl | h
    · simp [lookup, Std.ReflCmp.compare_self]
    · have hlt := he _ h
      have : compare k e.1 ≠ .eq := by
        rw [Std.OrientedCmp.gt_iff_lt.2 hlt]; decide
      rw [lookup, if_neg this]
      exact ih hr h

/-- Keeping the entries of some keys leaves the values of these keys alone. -/
theorem lookup_filter [Std.LawfulEqOrd K] (p : K → Bool) (k : K) (l : List (K × V)) :
    lookup k (l.filter fun e => p e.1) = if p k then lookup k l else none := by
  induction l with
  | nil => simp [lookup]
  | cons e rest ih =>
    by_cases hp : p e.1
    · rw [List.filter_cons_of_pos (by exact hp)]
      simp only [lookup, ih]
      by_cases hc : compare k e.1 = .eq
      · obtain rfl := Std.LawfulEqCmp.eq_of_compare hc
        simp [hp]
      · simp [hc]
    · rw [List.filter_cons_of_neg (by exact hp), ih]
      by_cases hc : compare k e.1 = .eq
      · obtain rfl := Std.LawfulEqCmp.eq_of_compare hc
        simp [hp]
      · simp [lookup, hc]

/-- To map the values and to look up commute. -/
theorem lookup_map (f : K → V → W) [Std.LawfulEqOrd K] (k : K) (l : List (K × V)) :
    lookup k (l.map fun e => (e.1, f e.1 e.2)) = (lookup k l).map (f k) := by
  induction l with
  | nil => rfl
  | cons e rest ih =>
    simp only [List.map_cons, lookup, ih]
    by_cases hc : compare k e.1 = .eq
    · obtain rfl := Std.LawfulEqCmp.eq_of_compare hc
      simp
    · simp [hc]

/-- The order of entries depends on their keys alone. -/
theorem sorted_of_keys_eq {l : List (K × V)} {l' : List (K × W)}
    (hk : l'.map (·.1) = l.map (·.1)) (h : l.Pairwise fun a b => compare a.1 b.1 = .lt) :
    l'.Pairwise fun a b => compare a.1 b.1 = .lt := by
  have h1 : (l.map (·.1)).Pairwise fun a b => compare a b = .lt := List.pairwise_map.2 h
  rw [← hk] at h1
  exact List.pairwise_map.1 h1

end Entries

/-! ## Maps -/

variable {K V W S : Type} [Ord K]

/-- The map without entries. -/
def empty : SortedMap K V := ⟨[], List.Pairwise.nil⟩

instance : Inhabited (SortedMap K V) := ⟨empty⟩

instance [DecidableEq K] [DecidableEq V] : DecidableEq (SortedMap K V) := fun a b =>
  if h : a.toList = b.toList then isTrue (by cases a; cases b; cases h; rfl)
  else isFalse fun hab => h (hab ▸ rfl)

/-- The value at `k`, if there is one. -/
def get? (m : SortedMap K V) (k : K) : Option V := Entries.lookup k m.toList

/-- True if `k` is a key. -/
def contains (m : SortedMap K V) (k : K) : Bool := (m.get? k).isSome

/-- The keys in increasing order. -/
def keys (m : SortedMap K V) : List K := m.toList.map (·.1)

/-- The values in the order of their keys. -/
def values (m : SortedMap K V) : List V := m.toList.map (·.2)

/-- The number of entries. -/
def size (m : SortedMap K V) : Nat := m.toList.length

/-- True if there are no entries. -/
def isEmpty (m : SortedMap K V) : Bool := m.toList.isEmpty

/-- Puts `v` at `k`, replacing what was there. -/
def insert [Std.TransOrd K] [Std.LawfulEqOrd K] (m : SortedMap K V) (k : K) (v : V) :
    SortedMap K V :=
  ⟨Entries.put k v m.toList, Entries.sorted_put k v m.sorted⟩

/-- Keeps the entries that satisfy `p`. -/
def filter (m : SortedMap K V) (p : K → V → Bool) : SortedMap K V :=
  ⟨m.toList.filter fun e => p e.1 e.2, m.sorted.filter _⟩

/-- Removes the entry at `k`. -/
def erase (m : SortedMap K V) (k : K) : SortedMap K V :=
  m.filter fun k' _ => compare k' k ≠ .eq

/-- Applies `f` to every value. -/
def mapValues (m : SortedMap K V) (f : K → V → W) : SortedMap K W :=
  ⟨m.toList.map fun e => (e.1, f e.1 e.2),
    Entries.sorted_of_keys_eq (by simp [List.map_map, Function.comp_def]) m.sorted⟩

/-- Applies `f` to every value, smallest key first, handing a state along. -/
def mapAccum (m : SortedMap K V) (f : S → K → V → W × S) (s : S) : SortedMap K W × S :=
  (⟨(Entries.thread f s m.toList).1,
    Entries.sorted_of_keys_eq (Entries.keys_thread f s m.toList) m.sorted⟩,
   (Entries.thread f s m.toList).2)

/-- Applies `f` to the value at `k`, if there is one. -/
def modify (m : SortedMap K V) (k : K) (f : V → V) : SortedMap K V :=
  m.mapValues fun k' v => if compare k' k = .eq then f v else v

/-- The map of the listed entries; of several with one key the last counts. -/
def ofList [Std.TransOrd K] [Std.LawfulEqOrd K] (entries : List (K × V)) : SortedMap K V :=
  entries.foldl (fun m e => m.insert e.1 e.2) empty

/-! ## Look-up after each operation -/

/-- The empty map finds nothing. -/
@[simp] theorem get?_empty (k : K) : (empty : SortedMap K V).get? k = none := rfl

section
variable [Std.TransOrd K] [Std.LawfulEqOrd K]

/-- An insertion sets the value of one key. -/
theorem get?_insert (m : SortedMap K V) (k k' : K) (v : V) :
    (m.insert k v).get? k' = if compare k' k = .eq then some v else m.get? k' :=
  Entries.lookup_put k k' v m.toList

/-- What was inserted is found. -/
@[simp] theorem get?_insert_self (m : SortedMap K V) (k : K) (v : V) :
    (m.insert k v).get? k = some v := by
  simp [get?_insert, Std.ReflCmp.compare_self]

/-- An entry is listed exactly if look-up finds it. -/
theorem mem_toList_iff {m : SortedMap K V} {k : K} {v : V} :
    (k, v) ∈ m.toList ↔ m.get? k = some v :=
  ⟨Entries.lookup_of_mem m.sorted, Entries.mem_of_lookup⟩

/-- Two maps that answer every look-up alike are equal. -/
theorem ext {m m' : SortedMap K V} (h : ∀ k, m.get? k = m'.get? k) : m = m' := by
  have hp : ∀ (l l' : List (K × V)), l.Pairwise (fun a b => compare a.1 b.1 = .lt) →
      l'.Pairwise (fun a b => compare a.1 b.1 = .lt) →
      (∀ k, Entries.lookup k l = Entries.lookup k l') → l = l' := by
    intro l
    induction l with
    | nil =>
      intro l' _ _ he
      cases l' with
      | nil => rfl
      | cons e r =>
        have := he e.1
        simp [Entries.lookup, Std.ReflCmp.compare_self] at this
    | cons e r ih =>
      intro l' hs hs' he
      cases l' with
      | nil =>
        have := he e.1
        simp [Entries.lookup, Std.ReflCmp.compare_self] at this
      | cons e' r' =>
        obtain ⟨h1, h2⟩ := List.pairwise_cons.1 hs
        obtain ⟨h1', h2'⟩ := List.pairwise_cons.1 hs'
        have hke : e.1 = e'.1 := by
          have ha := Entries.lookup_of_mem hs (k := e.1) (v := e.2) List.mem_cons_self
          have hb := Entries.lookup_of_mem hs' (k := e'.1) (v := e'.2) List.mem_cons_self
          rw [he] at ha
          rw [← he] at hb
          rcases List.mem_cons.1 (Entries.mem_of_lookup ha) with h | h
          · exact congrArg Prod.fst h
          · rcases List.mem_cons.1 (Entries.mem_of_lookup hb) with g | g
            · exact (congrArg Prod.fst g).symm
            · have a1 := h1' _ h
              have a2 := h1 _ g
              exact absurd (Std.TransCmp.lt_trans a1 a2)
                (by simp [Std.ReflCmp.compare_self])
        have hve : e.2 = e'.2 := by
          have := he e.1
          simpa [Entries.lookup, hke, Std.ReflCmp.compare_self] using this
        have hee : e = e' := Prod.ext hke hve
        subst hee
        congr 1
        apply ih r' h2 h2'
        intro k
        by_cases hc : compare k e.1 = .eq
        · obtain rfl := Std.LawfulEqCmp.eq_of_compare hc
          rw [Entries.lookup_eq_none_of_forall, Entries.lookup_eq_none_of_forall]
          · intro a ha
            rw [h1' a ha]; decide
          · intro a ha
            rw [h1 a ha]; decide
        · have := he k
          simpa [Entries.lookup, hc] using this
  have := hp m.toList m'.toList m.sorted m'.sorted h
  cases m; cases m'; cases this; rfl

end

section
variable [Std.LawfulEqOrd K]

/-- Filtering by key keeps the look-ups of the keys it keeps. -/
theorem get?_filterKeys (m : SortedMap K V) (p : K → Bool) (k : K) :
    (m.filter fun k _ => p k).get? k = if p k then m.get? k else none :=
  Entries.lookup_filter p k m.toList

/-- An erasure forgets the value of one key. -/
theorem get?_erase (m : SortedMap K V) (k k' : K) :
    (m.erase k).get? k' = if compare k' k = .eq then none else m.get? k' := by
  rw [erase, get?_filterKeys m (fun k' => decide (compare k' k ≠ .eq)) k']
  by_cases h : compare k' k = .eq <;> simp [h]

/-- To map the values and to look up commute. -/
theorem get?_mapValues (m : SortedMap K V) (f : K → V → W) (k : K) :
    (m.mapValues f).get? k = (m.get? k).map (f k) :=
  Entries.lookup_map f k m.toList

/-- A modification changes the value of one key, if it has one. -/
theorem get?_modify (m : SortedMap K V) (k k' : K) (f : V → V) :
    (m.modify k f).get? k' = if compare k' k = .eq then (m.get? k').map f else m.get? k' := by
  rw [modify, get?_mapValues]
  by_cases h : compare k' k = .eq <;> simp [h]

end

/-- Mapping the values keeps the keys. -/
@[simp] theorem keys_mapValues (m : SortedMap K V) (f : K → V → W) :
    (m.mapValues f).keys = m.keys := by
  simp [keys, mapValues, Function.comp_def]

/-- So does mapping them in order, with a state. -/
@[simp] theorem keys_mapAccum (m : SortedMap K V) (f : S → K → V → W × S) (s : S) :
    (m.mapAccum f s).1.keys = m.keys :=
  Entries.keys_thread f s m.toList

end SortedMap

/-- A finite set whose members are listed in increasing order. -/
abbrev SortedSet (K : Type) [Ord K] := SortedMap K Unit

namespace SortedSet

variable {K : Type} [Ord K] [Std.TransOrd K] [Std.LawfulEqOrd K]

/-- Adds a member. -/
def add (s : SortedSet K) (k : K) : SortedSet K := s.insert k ()

/-- The set of the listed members. -/
def ofKeys (ks : List K) : SortedSet K := ks.foldl add SortedMap.empty

end SortedSet
end ShieldedLedger
