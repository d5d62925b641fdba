import ShieldedLedger.SortedMap

/-!
# Look-ups told apart by equal keys

The laws of `SortedMap` tell keys apart by comparing them. Where equality of keys can be decided,
the same laws say it by equality, which is the form the theory of the ledger works with. A walk over
a map that hands a state along and never changes it is a plain change of the values
(`SortedMap.mapAccum_eq_mapValues`).
-/

namespace ShieldedLedger
namespace SortedMap

variable {K V W S : Type} [Ord K]

/-- A map without entries is the empty map. -/
theorem eq_empty_of_isEmpty {m : SortedMap K V} (h : m.isEmpty = true) : m = empty := by
  obtain ⟨entries, sorted⟩ := m
  obtain rfl : entries = [] := List.isEmpty_iff.1 h
  rfl

/-- A map lists no key twice. -/
theorem nodup_keys [Std.LawfulEqOrd K] (m : SortedMap K V) : m.keys.Nodup := by
  refine List.pairwise_map.2 (m.sorted.imp fun {a b} hab hk => ?_)
  have equal : compare a.1 b.1 = .eq := Std.LawfulEqCmp.compare_eq_iff_eq.2 hk
  rw [equal] at hab
  cases hab

section
variable [Std.LawfulEqOrd K] [DecidableEq K]

/-- After an erasure, for keys whose order tells them apart. -/
theorem get?_erase_eq_ite (m : SortedMap K V) (k k' : K) :
    (m.erase k).get? k' = if k' = k then none else m.get? k' := by
  rw [get?_erase]
  by_cases h : k' = k
  · simp [h, Std.ReflCmp.compare_self]
  · simp [h, Std.LawfulEqCmp.compare_eq_iff_eq]

/-- After a modification, likewise. -/
theorem get?_modify_eq_ite (m : SortedMap K V) (k k' : K) (f : V → V) :
    (m.modify k f).get? k' = if k' = k then (m.get? k').map f else m.get? k' := by
  rw [get?_modify]
  by_cases h : k' = k
  · simp [h, Std.ReflCmp.compare_self]
  · simp [h, Std.LawfulEqCmp.compare_eq_iff_eq]

end

section
variable [Std.TransOrd K] [Std.LawfulEqOrd K]

/-- After an insertion, likewise. -/
theorem get?_insert_eq_ite [DecidableEq K] (m : SortedMap K V) (k k' : K) (v : V) :
    (m.insert k v).get? k' = if k' = k then some v else m.get? k' := by
  rw [get?_insert]
  by_cases h : k' = k
  · simp [h, Std.ReflCmp.compare_self]
  · simp [h, Std.LawfulEqCmp.compare_eq_iff_eq]

/-- A value is listed exactly if look-up finds it at some key. -/
theorem mem_values_iff {m : SortedMap K V} {v : V} : v ∈ m.values ↔ ∃ k, m.get? k = some v := by
  constructor
  · intro h
    obtain ⟨e, he, rfl⟩ := List.mem_map.1 h
    exact ⟨e.1, mem_toList_iff.1 he⟩
  · rintro ⟨k, hk⟩
    exact List.mem_map.2 ⟨(k, v), mem_toList_iff.2 hk, rfl⟩

/-- What is left in a filtered map. -/
theorem get?_filter_eq_some_iff {m : SortedMap K V} {p : K → V → Bool} {k : K} {v : V} :
    (m.filter p).get? k = some v ↔ m.get? k = some v ∧ p k v = true := by
  rw [← mem_toList_iff, ← mem_toList_iff]
  exact List.mem_filter

/-- What holds of the values at any two keys holds of any two values in the list. -/
theorem pairwise_values {m : SortedMap K V} {R : V → V → Prop}
    (h : ∀ k k' v v', m.get? k = some v → m.get? k' = some v' → k ≠ k' → R v v') :
    m.values.Pairwise R := by
  refine List.pairwise_map.2 (m.sorted.imp_of_mem fun {a b} ha hb hab => ?_)
  refine h a.1 b.1 a.2 b.2 (mem_toList_iff.1 ha) (mem_toList_iff.1 hb) fun hk => ?_
  have equal : compare a.1 b.1 = .eq := Std.LawfulEqCmp.compare_eq_iff_eq.2 hk
  rw [equal] at hab
  cases hab

/-- A key is listed exactly if look-up finds a value there. -/
theorem mem_keys_iff {m : SortedMap K V} {k : K} : k ∈ m.keys ↔ ∃ v, m.get? k = some v := by
  unfold keys
  rw [List.mem_map]
  constructor
  · rintro ⟨⟨k, v⟩, hmem, rfl⟩
    exact ⟨v, mem_toList_iff.1 hmem⟩
  · rintro ⟨v, hv⟩
    exact ⟨(k, v), mem_toList_iff.2 hv, rfl⟩

/-- A map built from a list of entries holds nothing but these entries. -/
theorem mem_of_get?_ofList {entries : List (K × V)} {k : K} {v : V}
    (h : (ofList entries).get? k = some v) : (k, v) ∈ entries := by
  have inserted : ∀ (entries : List (K × V)) (m : SortedMap K V),
      (entries.foldl (fun m e => m.insert e.1 e.2) m).get? k = some v →
      (k, v) ∈ entries ∨ m.get? k = some v := by
    intro entries
    induction entries with
    | nil => exact fun m h => .inr h
    | cons e rest ih =>
      intro m hm
      rcases ih _ hm with hr | hr
      · exact .inl (List.mem_cons_of_mem _ hr)
      · rw [get?_insert] at hr
        split at hr
        · next hc =>
          obtain rfl := Std.LawfulEqCmp.eq_of_compare hc
          obtain rfl := Option.some.inj hr
          exact .inl List.mem_cons_self
        · exact .inr hr
  rcases inserted entries empty h with h | h
  · exact h
  · cases h

end

/-- A value after a walk comes from the value at its key, and from some state on the way. -/
theorem exists_of_get?_mapAccum {f : S → K → V → W × S} {m : SortedMap K V} {s : S} {k : K} {w : W}
    (h : (m.mapAccum f s).1.get? k = some w) :
    ∃ v s' k', m.get? k = some v ∧ (f s' k' v).1 = w := by
  have threaded : ∀ (l : List (K × V)) (s : S), Entries.lookup k (Entries.thread f s l).1 = some w →
      ∃ v s' k', Entries.lookup k l = some v ∧ (f s' k' v).1 = w := by
    intro l
    induction l with
    | nil => exact fun _ h => nomatch h
    | cons e rest ih =>
      intro s h
      simp only [Entries.thread, Entries.lookup] at h ⊢
      split at h
      · next hc =>
        rw [hc] at *
        exact ⟨e.2, s, e.1, rfl, Option.some.inj h⟩
      · next hc =>
        rw [if_neg hc]
        exact ih _ h
  exact threaded m.toList s h

/-- What a walk never changes about the values looks the same after it. -/
theorem map_get?_mapAccum {T : Type} {proj : V → T} {f : S → K → V → V × S}
    (h : ∀ s k v, proj (f s k v).1 = proj v) (m : SortedMap K V) (s : S) (k : K) :
    ((m.mapAccum f s).1.get? k).map proj = (m.get? k).map proj := by
  have threaded : ∀ (l : List (K × V)) (s : S),
      (Entries.lookup k (Entries.thread f s l).1).map proj = (Entries.lookup k l).map proj := by
    intro l
    induction l with
    | nil => exact fun _ => rfl
    | cons e rest ih =>
      intro s
      simp only [Entries.thread, Entries.lookup]
      split
      · simp [h]
      · exact ih _
  exact threaded m.toList s

/-- Handing along a state that no value changes comes to changing the values one by one. -/
theorem mapAccum_eq_mapValues {m : SortedMap K V} {f : S → K → V → W × S} {g : K → V → W} {s : S}
    (h : ∀ e ∈ m.toList, f s e.1 e.2 = (g e.1 e.2, s)) : m.mapAccum f s = (m.mapValues g, s) := by
  have threaded : ∀ l : List (K × V), (∀ e ∈ l, f s e.1 e.2 = (g e.1 e.2, s)) →
      Entries.thread f s l = (l.map fun e => (e.1, g e.1 e.2), s) := by
    intro l
    induction l with
    | nil => exact fun _ => rfl
    | cons e rest ih =>
      intro hl
      simp only [Entries.thread, hl e List.mem_cons_self,
        ih fun a ha => hl a (List.mem_cons_of_mem _ ha), List.map_cons]
  have hl := threaded m.toList h
  simp only [mapAccum, mapValues, hl]

/-! ## The state on the way -/

section
variable {P : S → Prop} {f : S → K → V → W × S}

omit [Ord K] in
/-- What is true of the state after a walk, and cannot become true on the way, was true before. -/
theorem Entries.of_thread (hback : ∀ s k v, P (f s k v).2 → P s) :
    ∀ {l : List (K × V)} {s : S}, P (Entries.thread f s l).2 → P s
  | [], _, h => h
  | _ :: _, _, h => hback _ _ _ (of_thread hback h)

/-- What is true of the state in the end was true of it before, if no step can make it true. -/
theorem of_mapAccum (hback : ∀ s k v, P (f s k v).2 → P s) {m : SortedMap K V} {s : S}
    (hlast : P (m.mapAccum f s).2) : P s := Entries.of_thread hback hlast

/-- So it is true of the state after each value. -/
theorem exists_get?_mapAccum (hback : ∀ s k v, P (f s k v).2 → P s) {m : SortedMap K V} {s : S}
    (hlast : P (m.mapAccum f s).2) {k : K} {v : V} (hv : m.get? k = some v) :
    ∃ s' k', P (f s' k' v).2 ∧ (m.mapAccum f s).1.get? k = some (f s' k' v).1 := by
  have threaded : ∀ (l : List (K × V)) (s : S), P (Entries.thread f s l).2 →
      Entries.lookup k l = some v → ∃ s' k', P (f s' k' v).2 ∧
        Entries.lookup k (Entries.thread f s l).1 = some (f s' k' v).1 := by
    intro l
    induction l with
    | nil => exact fun _ _ h => nomatch h
    | cons e rest ih =>
      intro s hlast hv
      simp only [Entries.thread, Entries.lookup] at hlast hv ⊢
      split at hv
      · next hc =>
        obtain rfl := Option.some.inj hv
        exact ⟨s, e.1, Entries.of_thread hback hlast, if_pos hc⟩
      · next hc =>
        rw [if_neg hc]
        exact ih _ hlast hv
  exact threaded m.toList s hlast hv

/-- What is not true any more after a walk was lost at one of the values. -/
theorem exists_mem_mapAccum {m : SortedMap K V} {s : S} (hs : P s)
    (hlast : ¬ P (m.mapAccum f s).2) :
    ∃ s' k v, P s' ∧ ¬ P (f s' k v).2 ∧ (f s' k v).1 ∈ (m.mapAccum f s).1.values := by
  have threaded : ∀ (l : List (K × V)) (s : S), P s → ¬ P (Entries.thread f s l).2 →
      ∃ s' k v, P s' ∧ ¬ P (f s' k v).2 ∧
        (f s' k v).1 ∈ (Entries.thread f s l).1.map Prod.snd := by
    intro l
    induction l with
    | nil => exact fun _ hs hlast => absurd hs hlast
    | cons e rest ih =>
      intro s hs hlast
      by_cases hfirst : P (f s e.1 e.2).2
      · obtain ⟨s', k, v, hs', hlost, hmem⟩ := ih _ hfirst hlast
        exact ⟨s', k, v, hs', hlost, List.mem_cons_of_mem _ hmem⟩
      · exact ⟨s, e.1, e.2, hs, hfirst, List.mem_cons_self⟩
  exact threaded m.toList s hs hlast

end

/-! ## Changing the values before and after an operation -/

/-- Mapping the values twice is mapping them once. -/
theorem mapValues_mapValues {X : Type} (m : SortedMap K V) (f : K → V → W) (g : K → W → X) :
    (m.mapValues f).mapValues g = m.mapValues fun k v => g k (f k v) := by
  simp [mapValues, Function.comp_def]

/-- An insertion and mapping the values commute. -/
theorem mapValues_insert [Std.TransOrd K] [Std.LawfulEqOrd K] (m : SortedMap K V) (k : K) (v : V)
    (g : V → W) :
    (m.insert k v).mapValues (fun _ => g) = (m.mapValues fun _ => g).insert k (g v) := by
  refine ext fun k' => ?_
  rw [get?_mapValues, get?_insert, get?_insert, get?_mapValues]
  split <;> rfl

/-- So do a modification and mapping the values, if they do at one value. -/
theorem mapValues_modify (m : SortedMap K V) (k : K) {f : V → V} {g : V → W} {f' : W → W}
    (h : ∀ v, g (f v) = f' (g v)) :
    (m.modify k f).mapValues (fun _ => g) = (m.mapValues fun _ => g).modify k f' := by
  unfold modify
  rw [mapValues_mapValues, mapValues_mapValues]
  congr 1
  funext k' v
  split
  · exact h v
  · rfl

/-- A change that `g` does not see. -/
theorem mapValues_modify_of_eq (m : SortedMap K V) (k : K) {f : V → V} {g : V → W}
    (h : ∀ v, g (f v) = g v) :
    (m.modify k f).mapValues (fun _ => g) = m.mapValues fun _ => g := by
  unfold modify
  rw [mapValues_mapValues]
  congr 1
  funext k' v
  split
  · exact h v
  · rfl

/-- What a walk leaves alone of every value is the same of all values after it. -/
theorem mapValues_mapAccum_of_eq [Std.TransOrd K] [Std.LawfulEqOrd K] (m : SortedMap K V)
    {f : S → K → V → V × S} {g : V → W} (h : ∀ s k v, g (f s k v).1 = g v) (s : S) :
    ((m.mapAccum f s).1.mapValues fun _ => g) = m.mapValues fun _ => g := by
  refine ext fun k => ?_
  rw [get?_mapValues, get?_mapValues]
  exact map_get?_mapAccum h m s k

/-- A walk and mapping the values commute, if they do at one value. -/
theorem mapAccum_mapValues {m : SortedMap K V} {f : S → K → V → V × S} {f' : S → K → W → W × S}
    {g : V → W} (h : ∀ s k v, f' s k (g v) = (g (f s k v).1, (f s k v).2)) (s : S) :
    (m.mapValues fun _ => g).mapAccum f' s =
      ((m.mapAccum f s).1.mapValues fun _ => g, (m.mapAccum f s).2) := by
  have threaded : ∀ (l : List (K × V)) (s : S),
      Entries.thread f' s (l.map fun e => (e.1, g e.2)) =
        ((Entries.thread f s l).1.map fun e => (e.1, g e.2), (Entries.thread f s l).2) := by
    intro l
    induction l with
    | nil => exact fun _ => rfl
    | cons e rest ih =>
      intro s
      simp only [List.map_cons, Entries.thread, h, ih]
  simp only [mapAccum, mapValues, threaded]

end SortedMap

namespace SortedSet

variable {K : Type} [Ord K] [Std.TransOrd K] [Std.LawfulEqOrd K]

/-- A set made of some keys holds these. -/
theorem contains_ofKeys_iff {keys : List K} {k : K} :
    (ofKeys keys).contains k = true ↔ k ∈ keys := by
  have added : ∀ (keys : List K) (s : SortedSet K),
      (keys.foldl add s).contains k = true ↔ k ∈ keys ∨ s.contains k = true := by
    intro keys
    induction keys with
    | nil => simp
    | cons a rest ih =>
      intro s
      rw [List.foldl_cons, ih, List.mem_cons]
      unfold add
      rw [SortedMap.contains, SortedMap.get?_insert]
      split
      · next h => simp [Std.LawfulEqCmp.eq_of_compare h]
      · next h =>
        have hne : k ≠ a := fun hk => h (Std.LawfulEqCmp.compare_eq_iff_eq.2 hk)
        simp [hne, SortedMap.contains]
  rw [ofKeys, added keys]
  exact or_iff_left fun h => nomatch h

end SortedSet
end ShieldedLedger
