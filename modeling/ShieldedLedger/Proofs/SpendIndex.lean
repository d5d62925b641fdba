import ShieldedLedger.Proofs.Runs

/-!
# The index of spenders

The ledger keeps two maps in step: the entries by hash, and for every output and nullifier the list
of records that claim it. `Ledger.SpendIndexed` says what in step means: the lists hold exactly the
hashes of the entries that claim the key, oldest first, and no list is empty. The invariant holds
after every run (`spendIndexed_after`), with nothing asked of keys, chain, store or the records that
are handed in, so a list never names a record twice and to conflict is symmetric
(`spendIndex_correct`).

What moves the lists is a walk over the keys of one entry. Both walks are given by the list they
leave at each key (`Registered.spenders`, `get?_foldl_withdrawSpend`), since a record may claim a
key twice and the second visit must then change nothing.
-/

namespace ShieldedLedger
namespace Ledger

variable {l l' : Ledger} {hash : Hash256} {e : Entry}

/-! ## The invariant -/

/-- What the index depends on in an entry: what the entry claims, and its place in the order. -/
def indexedPart (e : Entry) : Record × Int := (e.record, e.info.order)

/-- Both hashes have entries, and that of `a` was inserted before that of `b`. -/
def Precedes (l : Ledger) (a b : Hash256) : Prop :=
  ∃ x y, l.entry? a = some x ∧ l.entry? b = some y ∧ x.info.order < y.info.order

/-- The lists of spenders are in step with the entries. -/
structure SpendIndexed (l : Ledger) : Prop where
  /-- An entry is found by the hash of its record. -/
  hash_eq : ∀ {hash e}, l.entry? hash = some e → e.hash = hash
  /-- Listed for a key is who claims it. -/
  mem_iff : ∀ key hash,
    hash ∈ l.spendersOf key ↔ ∃ e, l.entry? hash = some e ∧ key ∈ e.spendKeys
  /-- The oldest is listed first. -/
  sorted : ∀ key, (l.spendersOf key).Pairwise l.Precedes
  /-- A key that nothing claims has no list. -/
  ne_nil : ∀ key, l.spenders.get? key ≠ some []
  /-- The next place in the order is free. -/
  order_lt : ∀ {hash e}, l.entry? hash = some e → e.info.order < l.nextOrder
  /-- No two entries share a place in the order. -/
  order_inj : ∀ {a b x y}, l.entry? a = some x → l.entry? b = some y →
    x.info.order = y.info.order → a = b

/-- No entry is older than itself. -/
theorem Precedes.irrefl {a : Hash256} (h : l.Precedes a a) : False := by
  obtain ⟨x, y, hx, hy, hlt⟩ := h
  obtain rfl := Option.some.inj (hx.symm.trans hy)
  omega

/-- A list of spenders does not name a record twice. -/
theorem SpendIndexed.nodup (h : SpendIndexed l) (key : SpendKey) : (l.spendersOf key).Nodup := by
  refine (h.sorted key).imp ?_
  rintro a b hab rfl
  exact hab.irrefl

/-- An empty ledger has no spenders. -/
theorem spendIndexed_empty (settings : Settings) (store : Store) :
    SpendIndexed (empty settings store) where
  hash_eq h := nomatch h
  mem_iff key hash := by
    constructor
    · exact fun h => nomatch h
    · exact fun ⟨_, h, _⟩ => nomatch h
  sorted key := .nil
  ne_nil key h := nomatch h
  order_lt h := nomatch h
  order_inj h := nomatch h

/-! ## Changes that leave the index alone -/

/-- Who is older can be told from what the index depends on. -/
theorem Agree.precedes (h : Agree indexedPart l l') {a b : Hash256} (hab : l.Precedes a b) :
    l'.Precedes a b := by
  obtain ⟨x, y, hx, hy, hlt⟩ := hab
  obtain ⟨x', hx', ex⟩ := h.symm.entry hx
  obtain ⟨y', hy', ey⟩ := h.symm.entry hy
  have ex : x.info.order = x'.info.order := congrArg Prod.snd ex
  have ey : y.info.order = y'.info.order := congrArg Prod.snd ey
  exact ⟨x', y', hx', hy', by omega⟩

/-- The index is in step with ledgers that agree on what it depends on. -/
theorem SpendIndexed.of_agree (h : Agree indexedPart l l') (hl : SpendIndexed l) :
    SpendIndexed l' := by
  have lists : ∀ key, l'.spendersOf key = l.spendersOf key := fun key => by
    unfold spendersOf
    rw [h.spenders]
  -- an entry of the later ledger has the record and the place of one of the earlier ledger
  have earlier : ∀ {hash e'}, l'.entry? hash = some e' →
      ∃ e, l.entry? hash = some e ∧ e'.record = e.record ∧ e'.info.order = e.info.order := by
    intro hash e' he'
    obtain ⟨e, he, hp⟩ := h.entry he'
    exact ⟨e, he, congrArg Prod.fst hp, congrArg Prod.snd hp⟩
  constructor
  case hash_eq =>
    intro hash e' he'
    obtain ⟨e, he, hr, -⟩ := earlier he'
    exact (congrArg Record.hash hr).trans (hl.hash_eq he)
  case mem_iff =>
    intro key hash
    rw [lists, hl.mem_iff]
    constructor
    · rintro ⟨e, he, hk⟩
      obtain ⟨e', he', hp⟩ := h.symm.entry he
      have hr : e.record = e'.record := congrArg Prod.fst hp
      exact ⟨e', he', by rwa [Entry.spendKeys, ← hr]⟩
    · rintro ⟨e', he', hk⟩
      obtain ⟨e, he, hr, -⟩ := earlier he'
      exact ⟨e, he, by rwa [Entry.spendKeys, ← hr]⟩
  case sorted =>
    intro key
    rw [lists]
    exact (hl.sorted key).imp h.precedes
  case ne_nil =>
    intro key
    rw [h.spenders]
    exact hl.ne_nil key
  case order_lt =>
    intro hash e' he'
    obtain ⟨e, he, -, ho⟩ := earlier he'
    have := hl.order_lt he
    rw [h.nextOrder]
    omega
  case order_inj =>
    intro a b x' y' hx' hy' ho
    obtain ⟨x, hx, -, ox⟩ := earlier hx'
    obtain ⟨y, hy, -, oy⟩ := earlier hy'
    exact hl.order_inj hx hy (by omega)

/-! ## Registration -/

/-- The list with the hash at its end, unless it is listed already. -/
def addOnce (owners : List Hash256) (hash : Hash256) : List Hash256 :=
  if owners.contains hash then owners else owners ++ [hash]

/-- Who is registered already is not registered again. -/
theorem addOnce_of_mem {owners : List Hash256} (h : hash ∈ owners) :
    addOnce owners hash = owners := by
  simp [addOnce, h]

/-- Who is not registered yet comes last. -/
theorem addOnce_of_not_mem {owners : List Hash256} (h : hash ∉ owners) :
    addOnce owners hash = owners ++ [hash] := by
  simp [addOnce, h]

/-- Either way, one is registered then. -/
theorem mem_addOnce (owners : List Hash256) (hash : Hash256) : hash ∈ addOnce owners hash := by
  by_cases h : hash ∈ owners
  · rwa [addOnce_of_mem h]
  · rw [addOnce_of_not_mem h]
    exact List.mem_append_right _ List.mem_cons_self

/-- The ledger with the hash listed for a key. -/
def listSpender (hash : Hash256) (l : Ledger) (key : SpendKey) : Ledger :=
  { l with spenders := l.spenders.insert key (addOnce (l.spendersOf key) hash) }

/-- But for bookkeeping and memoized amounts, registering a hash for a key is listing it. -/
theorem agree_registerSpend {β : Type} {f : Entry → β} (hm : IgnoresMemo f)
    (hi : ∀ (e : Entry) (i : EntryInfo), f { e with info := e.info.alignedWith i } = f e)
    (hash : Hash256) (l : Ledger) (key : SpendKey) :
    Agree f (listSpender hash l key) (registerSpend hash l key) := by
  show Agree f (listSpender hash l key)
    (if (addOnce (l.spendersOf key) hash).length > 1 then
      (addOnce (l.spendersOf key) hash).foldl (fun l owner => l.modifyEntry owner Entry.markDirty)
        ((listSpender hash l key).alignInfo (addOnce (l.spendersOf key) hash))
    else listSpender hash l key)
  split
  · refine (agree_alignInfo hi _).trans (agree_foldl (fun l owner => ?_) _ _)
    exact agree_modifyEntry fun e => hm e _
  · exact .refl f _

/-- In `l'` a hash is listed for all of `keys`, and nothing else is changed that `f` reads. -/
structure Registered {β : Type} (f : Entry → β) (hash : Hash256) (keys : List SpendKey)
    (l l' : Ledger) : Prop where
  entries : ∀ hash', (l'.entry? hash').map f = (l.entry? hash').map f
  spenders : ∀ key, l'.spenders.get? key =
    if key ∈ keys then some (addOnce (l.spendersOf key) hash) else l.spenders.get? key
  nextOrder : l'.nextOrder = l.nextOrder
  settings : l'.settings = l.settings

section
variable {β : Type} {f : Entry → β} (hm : IgnoresMemo f)
  (hi : ∀ (e : Entry) (i : EntryInfo), f { e with info := e.info.alignedWith i } = f e)
include hm hi

/-- Registering for one key changes the spenders of this key alone. -/
theorem registered_registerSpend (hash : Hash256) (l : Ledger) (key : SpendKey) :
    Registered f hash [key] l (registerSpend hash l key) := by
  have h := agree_registerSpend hm hi hash l key
  refine ⟨h.entries, fun key' => ?_, h.nextOrder, h.settings⟩
  rw [h.spenders]
  show (l.spenders.insert key _).get? key' = _
  simp only [SortedMap.get?_insert_eq_ite, List.mem_singleton]
  split
  · next hk => rw [hk]
  · rfl

/-- A key that is visited twice is registered once. -/
theorem registered_foldl (hash : Hash256) : ∀ (keys : List SpendKey) (l : Ledger),
    Registered f hash keys l (keys.foldl (registerSpend hash) l)
  | [], l => ⟨fun _ => rfl, fun key => by simp, rfl, rfl⟩
  | key :: rest, l => by
    have head := registered_registerSpend hm hi hash l key
    have tail := registered_foldl hash rest (registerSpend hash l key)
    refine ⟨fun hash' => (tail.entries hash').trans (head.entries hash'), fun key' => ?_,
      tail.nextOrder.trans head.nextOrder, tail.settings.trans head.settings⟩
    rw [List.foldl_cons, tail.spenders]
    have visited := head.spenders key'
    simp only [List.mem_singleton] at visited
    by_cases hk : key' = key
    · subst hk
      have once :
          (registerSpend hash l key').spendersOf key' = addOnce (l.spendersOf key') hash := by
        rw [spendersOf, visited, if_pos rfl, Option.getD_some]
      rw [once, addOnce_of_mem (mem_addOnce _ _), visited]
      simp
    · have same : (registerSpend hash l key).spendersOf key' = l.spendersOf key' := by
        rw [spendersOf, visited, if_neg hk, spendersOf]
      rw [same, visited, if_neg hk]
      simp [hk]

/-- Registering an entry changes the spenders of its keys alone. -/
theorem registered_registerSpends (he : l.entry? hash = some e) :
    Registered f hash e.spendKeys l (l.registerSpends hash) := by
  unfold registerSpends
  rw [he]
  exact registered_foldl hm hi hash e.spendKeys l

/-- It leaves all of the entries alone that does not depend on aligned bookkeeping. -/
theorem entries_registerSpends (l : Ledger) (hash hash' : Hash256) :
    (Ledger.entry? (l.registerSpends hash) hash').map f = (l.entry? hash').map f := by
  cases he : l.entry? hash with
  | none =>
    unfold registerSpends
    rw [he]
  | some e => exact (registered_registerSpends hm hi he).entries hash'

end

/-- Registering an entry once more changes nothing about the index. -/
theorem SpendIndexed.registerSpends (hl : SpendIndexed l) (hash : Hash256) :
    SpendIndexed (l.registerSpends hash) := by
  cases he : l.entry? hash with
  | none =>
    unfold Ledger.registerSpends
    rwa [he]
  | some e =>
    have reg : Registered indexedPart hash _ _ _ :=
      registered_registerSpends (fun _ _ => rfl) (fun _ _ => rfl) he
    refine hl.of_agree ⟨reg.entries, SortedMap.ext fun key => ?_, reg.nextOrder, reg.settings⟩
    rw [reg.spenders]
    split
    · next hk =>
      have known : hash ∈ l.spendersOf key := (hl.mem_iff key hash).2 ⟨e, he, hk⟩
      rw [addOnce_of_mem known]
      -- a list that names somebody is there
      unfold spendersOf at known ⊢
      cases hs : l.spenders.get? key with
      | none => rw [hs] at known; cases known
      | some owners => rfl
    · rfl

/-! ## Insertion -/

/-- What is found once a new entry is in. -/
theorem entry?_withNew (l : Ledger) (e : Entry) (store : Store) (hash : Hash256) :
    entry? (l.withNew e store) hash = if hash = e.hash then some e else l.entry? hash :=
  SortedMap.get?_insert_eq_ite _ _ _ _

/-- What is found once an entry is merged. -/
theorem entry?_withMerged (l : Ledger) (e : Entry) (store : Store) (hash : Hash256) :
    entry? (l.withMerged e store) hash = if hash = e.hash then some e else l.entry? hash :=
  SortedMap.get?_insert_eq_ite _ _ _ _

/-- In `l'` there is one entry more than in `l`, at the next place in the order and listed for what
it claims. -/
structure Inserted (hash : Hash256) (e : Entry) (l l' : Ledger) : Prop where
  absent : l.entry? hash = none
  hash_eq : e.hash = hash
  order : e.info.order = l.nextOrder
  entries : ∀ hash', l'.entry? hash' = if hash' = hash then some e else l.entry? hash'
  spenders : ∀ key, l'.spenders.get? key =
    if key ∈ e.spendKeys then some (addOnce (l.spendersOf key) hash) else l.spenders.get? key
  nextOrder : l'.nextOrder = l.nextOrder + 1

namespace Inserted

variable (h : Inserted hash e l l')
include h

/-- The new entry is held. -/
theorem added : l'.entry? hash = some e := by
  rw [h.entries, if_pos rfl]

/-- All others are still held. -/
theorem kept {hash' : Hash256} {x : Entry} (hx : l.entry? hash' = some x) :
    l'.entry? hash' = some x := by
  have hne : hash' ≠ hash := by
    rintro rfl
    exact nomatch h.absent.symm.trans hx
  rw [h.entries, if_neg hne, hx]

/-- There are no others. -/
theorem new_or_old {hash' : Hash256} {x : Entry} (hx : l'.entry? hash' = some x) :
    (hash' = hash ∧ x = e) ∨ l.entry? hash' = some x := by
  rw [h.entries] at hx
  split at hx
  · next hh => exact .inl ⟨hh, (Option.some.inj hx).symm⟩
  · exact .inr hx

/-- The new entry comes last in the lists. -/
theorem spendersOf_eq (hl : SpendIndexed l) (key : SpendKey) : l'.spendersOf key =
    if key ∈ e.spendKeys then l.spendersOf key ++ [hash] else l.spendersOf key := by
  have unlisted : hash ∉ l.spendersOf key := by
    intro hk
    obtain ⟨x, hx, -⟩ := (hl.mem_iff key hash).1 hk
    exact nomatch h.absent.symm.trans hx
  rw [spendersOf, h.spenders]
  split
  · exact addOnce_of_not_mem unlisted
  · rfl

/-- The new entry is listed for what it claims, and no list has changed otherwise. -/
theorem mem_iff (hl : SpendIndexed l) (key : SpendKey) (hash' : Hash256) :
    hash' ∈ l'.spendersOf key ↔ ∃ x, l'.entry? hash' = some x ∧ key ∈ x.spendKeys := by
  rw [h.spendersOf_eq hl]
  constructor
  · intro hmem
    have old (hmem : hash' ∈ l.spendersOf key) :
        ∃ x, l'.entry? hash' = some x ∧ key ∈ x.spendKeys := by
      obtain ⟨x, hx, hk⟩ := (hl.mem_iff key hash').1 hmem
      exact ⟨x, h.kept hx, hk⟩
    split at hmem
    · next hk =>
      rcases List.mem_append.1 hmem with hmem | hmem
      · exact old hmem
      · obtain rfl := List.mem_singleton.1 hmem
        exact ⟨e, h.added, hk⟩
    · exact old hmem
  · rintro ⟨x, hx, hk⟩
    rcases h.new_or_old hx with ⟨rfl, rfl⟩ | hx
    · rw [if_pos hk]
      exact List.mem_append_right _ List.mem_cons_self
    · have hmem := (hl.mem_iff key hash').2 ⟨x, hx, hk⟩
      split
      · exact List.mem_append_left _ hmem
      · exact hmem

/-- As it comes last in the order, it is listed last. -/
theorem sorted (hl : SpendIndexed l) (key : SpendKey) :
    (l'.spendersOf key).Pairwise l'.Precedes := by
  have older : (l.spendersOf key).Pairwise l'.Precedes := by
    refine (hl.sorted key).imp ?_
    rintro a b ⟨x, y, hx, hy, hlt⟩
    exact ⟨x, y, h.kept hx, h.kept hy, hlt⟩
  rw [h.spendersOf_eq hl]
  split
  · refine List.pairwise_append.2 ⟨older, List.pairwise_singleton _ _, fun a ha b hb => ?_⟩
    obtain rfl := List.mem_singleton.1 hb
    obtain ⟨x, hx, -⟩ := (hl.mem_iff key a).1 ha
    have := hl.order_lt hx
    have := h.order
    exact ⟨x, e, h.kept hx, h.added, by omega⟩
  · exact older

end Inserted

/-- A new entry keeps the index in step. -/
theorem SpendIndexed.insert (hl : SpendIndexed l) (h : Inserted hash e l l') :
    SpendIndexed l' := by
  have last := h.order
  have next := h.nextOrder
  constructor
  case hash_eq =>
    intro hash' x hx
    rcases h.new_or_old hx with ⟨rfl, rfl⟩ | hx
    · exact h.hash_eq
    · exact hl.hash_eq hx
  case mem_iff => exact h.mem_iff hl
  case sorted => exact h.sorted hl
  case ne_nil =>
    intro key hs
    rw [h.spenders] at hs
    split at hs
    · have listed := mem_addOnce (l.spendersOf key) hash
      rw [Option.some.inj hs] at listed
      cases listed
    · exact hl.ne_nil key hs
  case order_lt =>
    intro hash' x hx
    rcases h.new_or_old hx with ⟨-, rfl⟩ | hx
    · omega
    · have := hl.order_lt hx
      omega
  case order_inj =>
    intro a b x y hx hy hxy
    rcases h.new_or_old hx with ⟨rfl, rfl⟩ | hx <;> rcases h.new_or_old hy with ⟨rfl, rfl⟩ | hy
    · rfl
    · have := hl.order_lt hy
      omega
    · have := hl.order_lt hx
      omega
    · exact hl.order_inj hx hy hxy

/-- A new entry that takes the next place in the order keeps the index in step. -/
theorem SpendIndexed.registerNew (hl : SpendIndexed l) (hnew : l.entry? e.hash = none)
    (ho : e.info.order = l.nextOrder) (store : Store) :
    SpendIndexed ((l.withNew e store).registerSpends e.hash) := by
  have he : entry? (l.withNew e store) e.hash = some e := by rw [entry?_withNew, if_pos rfl]
  have reg : Registered indexedPart e.hash _ _ _ :=
    registered_registerSpends (fun _ _ => rfl) (fun _ _ => rfl) he
  -- the index ignores what registration changes in the entries
  have same : Agree indexedPart
      { (l.withNew e store).registerSpends e.hash with entries := (l.withNew e store).entries }
      ((l.withNew e store).registerSpends e.hash) := ⟨reg.entries, rfl, rfl, rfl⟩
  have inserted : Inserted e.hash e l
      { (l.withNew e store).registerSpends e.hash with entries := (l.withNew e store).entries } :=
    ⟨hnew, rfl, ho, l.entry?_withNew e store, reg.spenders, reg.nextOrder⟩
  exact .of_agree same (hl.insert inserted)

/-- Adding an entry keeps the index in step, whether it is new, known, or refused by the store. -/
theorem keeps_spendIndexed_addEntry (chain : ChainView) (now : Int64) (incoming : Entry) :
    Keeps SpendIndexed (addEntry chain now incoming) := by
  intro l hl
  rcases addEntry_cases chain now incoming l with h | ⟨hnew, store, h⟩ | ⟨stored, store, hs, h⟩
  · rwa [h]
  · rw [h]
    exact .of_agree (agree_indexEntry _)
      (hl.registerNew (e := (incoming.received chain now l.nextOrder).markDirty) hnew rfl store)
  · rw [h]
    have key : stored.hash = incoming.hash := hl.hash_eq hs
    have key : (stored.merge incoming).markDirty.hash = incoming.hash := key
    have same : Agree indexedPart l (l.withMerged (stored.merge incoming).markDirty store) := by
      refine ⟨fun hash' => ?_, rfl, rfl, rfl⟩
      rw [entry?_withMerged, key]
      split
      · next hh => rw [hh, hs]; rfl
      · rfl
    exact .of_agree (agree_indexEntry _) (hl.of_agree same)

/-! ## Removal -/

/-- The list without the hash, where that leaves anybody. -/
def withoutSpender (owners : List Hash256) (hash : Hash256) : Option (List Hash256) :=
  if (owners.filter (· != hash)).isEmpty then none else some (owners.filter (· != hash))

/-- Who withdraws from a list of spenders is not in it any more. -/
theorem getD_withoutSpender (owners : List Hash256) (hash : Hash256) :
    (withoutSpender owners hash).getD [] = owners.filter (· != hash) := by
  unfold withoutSpender
  split
  · next h => rw [List.isEmpty_iff.1 h, Option.getD_none]
  · rfl

/-- A withdrawal from one key leaves the spenders of all others alone. -/
theorem get?_withdrawSpend (hash : Hash256) (l : Ledger) (key key' : SpendKey) :
    (withdrawSpend hash l key).spenders.get? key' =
      if key' = key then withoutSpender (l.spendersOf key) hash else l.spenders.get? key' := by
  unfold withdrawSpend withoutSpender
  dsimp only
  split
  · rw [SortedMap.get?_erase_eq_ite]
  · rw [SortedMap.get?_insert_eq_ite]

/-- A key that is visited twice is cleared of the hash once. -/
theorem get?_foldl_withdrawSpend (hash : Hash256) (key : SpendKey) :
    ∀ (keys : List SpendKey) (l : Ledger),
      (keys.foldl (withdrawSpend hash) l).spenders.get? key =
        if key ∈ keys then withoutSpender (l.spendersOf key) hash else l.spenders.get? key
  | [], l => by simp
  | key' :: rest, l => by
    rw [List.foldl_cons, get?_foldl_withdrawSpend hash key rest]
    have visited := get?_withdrawSpend hash l key' key
    by_cases hk : key = key'
    · subst hk
      have once : (withdrawSpend hash l key).spendersOf key =
          (l.spendersOf key).filter (· != hash) := by
        rw [spendersOf, visited, if_pos rfl, getD_withoutSpender]
      rw [once, visited, if_pos rfl]
      simp [withoutSpender]
    · have same : (withdrawSpend hash l key').spendersOf key = l.spendersOf key := by
        rw [spendersOf, visited, if_neg hk, spendersOf]
      rw [same, visited, if_neg hk]
      simp [hk]

/-- Withdrawing touches the lists only. -/
theorem foldl_withdrawSpend (hash : Hash256) : ∀ (keys : List SpendKey) (l : Ledger),
    ∃ spenders, keys.foldl (withdrawSpend hash) l = { l with spenders }
  | [], l => ⟨l.spenders, rfl⟩
  | key :: rest, l => by
    obtain ⟨spenders, h⟩ := foldl_withdrawSpend hash rest (withdrawSpend hash l key)
    exact ⟨spenders, h⟩

/-- What is found once an entry is erased. -/
theorem entry?_erase (l : Ledger) (hash hash' : Hash256) :
    entry? (l.erase hash).2 hash' = if hash' = hash then none else l.entry? hash' := by
  unfold Ledger.erase
  cases he : l.entry? hash with
  | none =>
    show l.entry? hash' = _
    split
    · next hh => rw [hh, he]
    · rfl
  | some e =>
    dsimp only
    obtain ⟨spenders, h⟩ := foldl_withdrawSpend hash e.spendKeys
      { l with entries := l.entries.erase hash }
    rw [h]
    exact SortedMap.get?_erase_eq_ite _ _ _

/-- What is held once an entry is removed was held before. -/
theorem entry?_of_erase {hash' : Hash256} (he : entry? (l.erase hash).2 hash' = some e) :
    l.entry? hash' = some e := by
  rw [entry?_erase] at he
  split at he
  · cases he
  · exact he

/-- An entry gone, and its hash with it from the lists of what it claims. -/
theorem SpendIndexed.remove (hl : SpendIndexed l) (he : l.entry? hash = some e)
    (entries : ∀ hash', l'.entry? hash' = if hash' = hash then none else l.entry? hash')
    (spenders : ∀ key, l'.spenders.get? key =
      if key ∈ e.spendKeys then withoutSpender (l.spendersOf key) hash else l.spenders.get? key)
    (next : l'.nextOrder = l.nextOrder) : SpendIndexed l' := by
  have lists : ∀ key, l'.spendersOf key = (l.spendersOf key).filter (· != hash) := by
    intro key
    rw [spendersOf, spenders]
    split
    · exact getD_withoutSpender _ _
    · next hk =>
      -- whoever does not claim the key is not listed for it
      refine (List.filter_eq_self.2 fun a ha => ?_).symm
      rw [bne_iff_ne]
      rintro rfl
      obtain ⟨x, hx, hxk⟩ := (hl.mem_iff key a).1 ha
      obtain rfl := Option.some.inj (he.symm.trans hx)
      exact hk hxk
  have kept : ∀ {hash' x}, hash' ≠ hash → l.entry? hash' = some x → l'.entry? hash' = some x := by
    intro hash' x hne hx
    rw [entries, if_neg hne, hx]
  have old : ∀ {hash' x}, l'.entry? hash' = some x → hash' ≠ hash ∧ l.entry? hash' = some x := by
    intro hash' x hx
    rw [entries] at hx
    split at hx
    · cases hx
    · next hne => exact ⟨hne, hx⟩
  constructor
  case hash_eq => exact fun hx => hl.hash_eq (old hx).2
  case mem_iff =>
    intro key hash'
    rw [lists, List.mem_filter, bne_iff_ne, hl.mem_iff]
    constructor
    · rintro ⟨⟨x, hx, hk⟩, hne⟩
      exact ⟨x, kept hne hx, hk⟩
    · rintro ⟨x, hx, hk⟩
      obtain ⟨hne, hx⟩ := old hx
      exact ⟨⟨x, hx, hk⟩, hne⟩
  case sorted =>
    intro key
    rw [lists]
    refine ((hl.sorted key).filter _).imp_of_mem fun {a b} ha hb hab => ?_
    obtain ⟨x, y, hx, hy, hlt⟩ := hab
    exact ⟨x, y, kept (bne_iff_ne.1 (List.mem_filter.1 ha).2) hx,
      kept (bne_iff_ne.1 (List.mem_filter.1 hb).2) hy, hlt⟩
  case ne_nil =>
    intro key h
    rw [spenders] at h
    split at h
    · unfold withoutSpender at h
      split at h
      · cases h
      · next hne => exact hne (by rw [Option.some.inj h]; rfl)
    · exact hl.ne_nil key h
  case order_lt =>
    intro hash' x hx
    rw [next]
    exact hl.order_lt (old hx).2
  case order_inj => exact fun hx hy hxy => hl.order_inj (old hx).2 (old hy).2 hxy

/-- An erasure keeps the index in step: the entry withdraws from all it claims. -/
theorem SpendIndexed.erase (hl : SpendIndexed l) (hash : Hash256) :
    SpendIndexed (l.erase hash).2 := by
  unfold Ledger.erase
  cases he : l.entry? hash with
  | none => exact hl
  | some e =>
    dsimp only
    obtain ⟨spenders, h⟩ := foldl_withdrawSpend hash e.spendKeys
      { l with entries := l.entries.erase hash }
    have lists := fun key => get?_foldl_withdrawSpend hash key e.spendKeys
      { l with entries := l.entries.erase hash }
    rw [h] at lists ⊢
    exact hl.remove he (fun hash' => SortedMap.get?_erase_eq_ite _ _ _) lists rfl

/-! ## Runs -/

/-- Every operation keeps the index of spenders in step with the entries. -/
theorem SpendIndexed.apply (hl : SpendIndexed l) (s : Surroundings) (op : Operation) :
    SpendIndexed (op.apply s l) :=
  keeps_of_agree (f := indexedPart) (fun _ _ => rfl) (fun _ _ => rfl)
    (fun _ _ h hl => hl.of_agree h) keeps_spendIndexed_addEntry
    (fun hash _ hl => hl.registerSpends hash) (fun hash _ hl => hl.erase hash) s op l hl

/-- It is in step after every run. -/
theorem spendIndexed_after (settings : Settings) (store : Store)
    (steps : List (Surroundings × Operation)) :
    SpendIndexed ((empty settings store).after steps) :=
  after_keeps (fun s op _ hl => hl.apply s op) steps (spendIndexed_empty settings store)

/-- Who conflicts with an entry: the others that claim something it claims. -/
theorem SpendIndexed.contains_conflicts_iff (h : SpendIndexed l) {a b : Hash256} :
    (l.conflicts a).contains b = true ↔ b ≠ a ∧ ∃ x y key, l.entry? a = some x ∧
      l.entry? b = some y ∧ key ∈ x.spendKeys ∧ key ∈ y.spendKeys := by
  unfold conflicts
  cases ha : l.entry? a with
  | none =>
    constructor
    · exact fun h => nomatch h
    · rintro ⟨-, x, y, key, hx, -⟩
      cases hx
  | some x =>
    dsimp only
    rw [SortedSet.contains_ofKeys_iff, List.mem_filter, List.mem_flatMap, bne_iff_ne, and_comm]
    refine and_congr_right fun _ => ⟨?_, ?_⟩
    · rintro ⟨key, hk, hb⟩
      obtain ⟨y, hy, hyk⟩ := (h.mem_iff key b).1 hb
      exact ⟨x, y, key, rfl, hy, hk, hyk⟩
    · rintro ⟨x', y, key, hx, hy, hk, hyk⟩
      obtain rfl := Option.some.inj hx
      exact ⟨key, hk, (h.mem_iff key b).2 ⟨y, hy, hyk⟩⟩

/-- After every run from an empty ledger: for every output and every nullifier, listed is exactly
who is held and claims it, the oldest first and nobody twice; no list is empty; no two entries share
a place in the order, and the next place is free. And of two records, one conflicts with the other
exactly if the other conflicts with the one. -/
theorem spendIndex_correct (settings : Settings) (store : Store)
    (steps : List (Surroundings × Operation)) :
    let l := (empty settings store).after steps
    (∀ key hash, hash ∈ l.spendersOf key ↔
      ∃ e, l.entry? hash = some e ∧ e.hash = hash ∧ key ∈ e.spendKeys) ∧
    (∀ key, (l.spendersOf key).Nodup ∧ (l.spendersOf key).Pairwise l.Precedes) ∧
    (∀ key, l.spenders.get? key ≠ some []) ∧
    (∀ hash e, l.entry? hash = some e → e.info.order < l.nextOrder) ∧
    (∀ a b x y, l.entry? a = some x → l.entry? b = some y → a ≠ b → x.info.order ≠ y.info.order) ∧
    (∀ a b, (l.conflicts a).contains b = (l.conflicts b).contains a) := by
  intro l
  have h : SpendIndexed l := spendIndexed_after settings store steps
  refine ⟨fun key hash => ?_, fun key => ⟨h.nodup key, h.sorted key⟩, h.ne_nil,
    fun _ _ => h.order_lt, fun a b x y hx hy hne hxy => hne (h.order_inj hx hy hxy), fun a b => ?_⟩
  · rw [h.mem_iff]
    constructor
    · rintro ⟨e, he, hk⟩
      exact ⟨e, he, h.hash_eq he, hk⟩
    · rintro ⟨e, he, -, hk⟩
      exact ⟨e, he, hk⟩
  · rw [Bool.eq_iff_iff, h.contains_conflicts_iff, h.contains_conflicts_iff]
    constructor <;>
    · rintro ⟨hne, x, y, key, hx, hy, hk, hyk⟩
      exact ⟨hne.symm, y, x, key, hy, hx, hyk, hk⟩

end Ledger
end ShieldedLedger
