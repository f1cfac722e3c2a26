/-
  The store as a map from keys to entries.

  `entry s key` is the entry physically present for a key.  Each operation is
  specified by what it answers and by the entries after it: the sharding does
  not show (`entry_putShard`).
-/
import DistCache.Store

namespace DistCache

/-- Every map can be ranged over; `l` is the order for the map it lists. -/
noncomputable def RangeOrder.listing {κ α : Type} [DecidableEq κ] [DecidableEq α]
    (l : List (Σ _ : κ, α)) : RangeOrder κ α where
  list m := if m.entries = l then l else m.entries.toList
  entries m := by
    split_ifs with h
    · exact h.symm
    · exact m.entries.coe_toList

noncomputable instance {κ α : Type} [DecidableEq κ] [DecidableEq α] :
    Inhabited (RangeOrder κ α) := ⟨.listing []⟩

namespace RangeOrder

variable {κ α : Type} (ord : RangeOrder κ α) (m : GoMap κ α)

/-- A `range` loop visits the entries of the map. -/
theorem mem_list [DecidableEq κ] {k : κ} {a : α} : ⟨k, a⟩ ∈ ord.list m ↔ m.lookup k = some a := by
  rw [Finmap.lookup_eq_some_iff, ← ord.entries m, Multiset.mem_coe]

theorem mem_keys {k : κ} : k ∈ (ord.list m).map Sigma.fst ↔ k ∈ m := by
  rw [Finmap.mem_def, ← ord.entries m]
  rfl

theorem keys_nodup : ((ord.list m).map Sigma.fst).Nodup := by
  have h := m.nodupKeys
  rw [← ord.entries m, Multiset.coe_nodupKeys] at h
  exact h

theorem length_list : (ord.list m).length = m.keys.card := by
  have h : m.keys.card = m.entries.card := Multiset.card_map _ _
  rw [h, ← ord.entries m, Multiset.coe_card]

end RangeOrder

theorem toInt_pos {d : Int64} : 0 < d.toInt ↔ 0 < d := by
  rw [Int64.lt_iff_toInt_lt]
  rfl

/-- The new expiry is not over when it is set. -/
theorem not_isExpired_expiryOf (value : Value) (now : Time) (ttl : Duration) :
    Entry.isExpired ⟨value, Store.expiryOf now ttl⟩ now = false := by
  simp only [Store.expiryOf]
  split_ifs with hpos
  · exact decide_eq_false (not_lt.2 (le_add_of_nonneg_right (toInt_pos.2 hpos).le))
  · rfl

namespace Store

variable (s : Store) (now : Time) (key k : Key)

/-- The entry present for a key, expired or not. -/
def entry (s : Store) (key : Key) : Option Entry := (s.getShard key).lookup key

@[simp] theorem entry_count (f : StoreStats → StoreStats) : (s.count f).entry k = s.entry k := rfl

/-- Replacing the shard of `key` by one that agrees on the other keys changes
    the entry of `key` only. -/
theorem entry_putShard {items : Items} {e : Option Entry} (hk : items.lookup key = e)
    (hne : ∀ k ≠ key, items.lookup k = (s.getShard key).lookup k) :
    (s.putShard key items).entry k = if k = key then e else s.entry k := by
  have hget : (s.putShard key items).getShard k =
      if s.shardIndex k = s.shardIndex key then items else s.getShard k := by
    simp only [getShard, putShard, shardIndex, List.get_eq_getElem, List.getElem_set, eq_comm]
  unfold entry
  rw [hget]
  split_ifs with hi he he
  · subst he; exact hk
  · rw [hne k he]
    simp only [getShard, hi]
  · subst he; exact absurd rfl hi
  · rfl

theorem entry_insert (e : Entry) :
    (s.putShard key ((s.getShard key).insert key e)).entry k =
      if k = key then some e else s.entry k :=
  entry_putShard s key k (Finmap.lookup_insert _) fun _ h => Finmap.lookup_insert_of_ne _ h

theorem entry_erase :
    (s.putShard key ((s.getShard key).erase key)).entry k =
      if k = key then none else s.entry k :=
  entry_putShard s key k (Finmap.lookup_erase _ _) fun _ h => Finmap.lookup_erase_ne h

/-! ## The operations -/

theorem entry_set (value : Value) (ttl : Duration) :
    (s.set now key value ttl).entry k =
      if k = key then some ⟨value, expiryOf now ttl⟩ else s.entry k := by
  simp only [set, entry_count, entry_insert]

theorem delete_fst : (s.delete key).1 = (s.entry key).isSome := by
  unfold delete entry
  cases (s.getShard key).lookup key <;> rfl

theorem entry_delete : (s.delete key).2.entry k = if k = key then none else s.entry k := by
  unfold delete
  split
  · rename_i he
    split_ifs with hk
    · subst hk; exact he
    · rfl
  · simp only [entry_count, entry_erase]

/-- The value `Get` returns, from the entry. -/
theorem get_fst :
    (s.get now key).1 = ((s.entry key).filter fun e => !e.isExpired now).map Entry.value := by
  unfold get entry
  split
  · rename_i he; rw [he]; rfl
  · rename_i e he
    rw [he]
    split_ifs with hx <;> simp [Option.filter, hx]

/-- The lazy expiry removes the entry of the key if it is expired. -/
theorem entry_lazyExpire :
    (s.lazyExpire now key).entry k =
      if k = key then (s.entry key).filter fun e => !e.isExpired now else s.entry k := by
  unfold lazyExpire
  split
  · rename_i he
    split_ifs with hk
    · subst hk; rw [entry, he]; rfl
    · rfl
  · rename_i e he
    have he' : s.entry key = some e := he
    split_ifs with hx hk hk
    · rw [entry_count, entry_erase, if_pos hk, he', Option.filter_some, hx]; rfl
    · rw [entry_count, entry_erase, if_neg hk]
    · rw [hk, he', Option.filter_some, if_pos (by simpa using hx)]
    · rfl

/-- `Get` removes the entry if it is expired, and changes nothing else. -/
theorem entry_get :
    (s.get now key).2.entry k =
      if k = key then (s.entry key).filter fun e => !e.isExpired now else s.entry k := by
  rw [← entry_lazyExpire]
  unfold get
  split
  · rename_i he
    simp only [lazyExpire, he]
    rfl
  · rename_i e he
    split_ifs with hx
    · rfl
    · simp only [lazyExpire, he, if_neg hx]
      rfl

theorem expire_fst (ttl : Duration) :
    (s.expire now key ttl).1 = ((s.entry key).filter fun e => !e.isExpired now).isSome := by
  unfold expire entry
  split
  · rename_i he; rw [he]; rfl
  · rename_i e he
    rw [he]
    split_ifs with hx <;> simp [Option.filter, hx]

/-- `Expire` sets the expiry of an entry that is not expired. -/
theorem entry_expire (ttl : Duration) :
    (s.expire now key ttl).2.entry k =
      if k = key then
        (s.entry key).map fun e =>
          if e.isExpired now then e else { e with expiresAt := expiryOf now ttl }
      else s.entry k := by
  unfold expire
  split
  · rename_i he
    split_ifs with hk
    · subst hk; rw [entry, he]; rfl
    · rfl
  · rename_i e he
    have he' : s.entry key = some e := he
    split_ifs with hx hk hk
    · subst hk; simp [he', hx]
    · rfl
    · subst hk; simp [entry_insert, he', hx]
    · simp [entry_insert, hk]

/-! ## Persistent entries -/

/-- An entry without expiry. -/
abbrev persistent (value : Value) : Entry := ⟨value, none⟩

@[simp] theorem expiryOf_zero : expiryOf now 0 = none := rfl

/-- A persistent entry is never expired. -/
@[simp] theorem filter_persistent (v : Option Value) :
    ((v.map persistent).filter fun e => !e.isExpired now) = v.map persistent := by
  cases v <;> rfl

theorem get_persistent {v : Option Value} (h : s.entry key = v.map persistent) :
    (s.get now key).1 = v ∧ ∀ k, (s.get now key).2.entry k = s.entry k := by
  refine ⟨?_, fun k => ?_⟩
  · rw [get_fst, h, filter_persistent]
    cases v <;> rfl
  · rw [entry_get, h, filter_persistent]
    split_ifs with hk
    · rw [hk, h]
    · rfl

/-- A read finds a value at all times exactly if the entry is persistent. -/
theorem get_eq_always_iff {v : Value} :
    (∀ now, (s.get now key).1 = some v) ↔ s.entry key = some (persistent v) := by
  constructor
  · intro h
    rcases he : s.entry key with _ | ⟨value, _ | t⟩
    · have := h 0
      simp [get_fst, he] at this
    · have := h 0
      simp only [get_fst, he, Option.filter, Entry.isExpired, Bool.not_false, if_true,
        Option.map_some, Option.some.injEq] at this
      rw [this]
    · -- after its expiry, the entry is not found
      have := h (t + 1)
      simp [get_fst, he, Option.filter, Entry.isExpired] at this
  · intro h now
    exact (get_persistent s now key (v := some v) h).1

/-! ## Scans -/

/-- Every key is in the shard selected by its hash. -/
def Placed (s : Store) : Prop :=
  ∀ i items, s.shards[i]? = some items → ∀ key ∈ items, s.shardIndex key = i

theorem placed_newWithShards (n : ℤ) : (newWithShards n).Placed := by
  intro i items hi key hkey
  obtain rfl := List.eq_of_mem_replicate (List.mem_of_getElem? hi)
  exact absurd hkey Finmap.notMem_empty

theorem Placed.putShard (h : s.Placed) {items : Items}
    (hsub : ∀ k ∈ items, k = key ∨ k ∈ s.getShard key) : (s.putShard key items).Placed := by
  intro i items' hi k hk
  show s.shardIndex k = i
  simp only [Store.putShard, List.getElem?_set] at hi
  split_ifs at hi with hidx hlt
  · obtain rfl := Option.some.inj hi
    rcases hsub k hk with rfl | hk
    · exact hidx
    · rw [← hidx]
      exact h _ _ (List.getElem?_eq_getElem (s.shardIndex_lt key)) k hk
  · exact h i items' hi k hk

theorem Placed.set (h : s.Placed) (value : Value) (ttl : Duration) :
    (s.set now key value ttl).Placed :=
  Placed.putShard s key h fun _ hk => Finmap.mem_insert.1 hk

theorem Placed.delete (h : s.Placed) : (s.delete key).2.Placed := by
  unfold Store.delete
  split
  · exact h
  · exact Placed.putShard s key h fun _ hk => Or.inr (Finmap.mem_erase.1 hk).2

/-- What a shard has for a key is the entry of the key. -/
theorem Placed.entry_of_mem (h : s.Placed) {items : Items} (hitems : items ∈ s.shards) {e : Entry}
    (he : items.lookup key = some e) : s.entry key = some e := by
  obtain ⟨i, hi⟩ := List.getElem?_of_mem hitems
  have hidx := h i items hi key (Finmap.lookup_isSome.1 (by rw [he]; rfl))
  obtain ⟨hlt, rfl⟩ := List.getElem?_eq_some_iff.1 hi
  subst hidx
  exact he

/-- `ForEach` visits the entries that are not expired. -/
theorem Placed.mem_visits (h : s.Placed) {ord : RangeOrder Key Entry} {value : Value}
    {ttl : Duration} :
    (key, value, ttl) ∈ s.visits ord now ↔ ∃ e, s.entry key = some e ∧ e.isExpired now = false ∧
      e.value = value ∧ (e.expiresAt.map fun t => timeSub t now).getD 0 = ttl := by
  simp only [visits, List.mem_flatMap, List.mem_filterMap]
  constructor
  · rintro ⟨items, hitems, ⟨key', e⟩, he, hv⟩
    split_ifs at hv with hx
    simp only [Option.some.injEq, Prod.mk.injEq] at hv
    obtain ⟨rfl, rfl, rfl⟩ := hv
    have hl := Placed.entry_of_mem s key' h hitems ((ord.mem_list items).1 he)
    exact ⟨e, hl, by simpa using hx, rfl, rfl⟩
  · rintro ⟨e, he, hx, rfl, rfl⟩
    refine ⟨s.getShard key, List.get_mem _ _, ⟨key, e⟩, (ord.mem_list _).2 he, ?_⟩
    simp [hx]

theorem newWithShards_entry (n : ℤ) : (newWithShards n).entry key = none := by
  simp [entry, getShard, newWithShards]

end Store

end DistCache
