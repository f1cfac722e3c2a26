/-
  The client-side cache as a list.

  The map and the list of the cache correspond (`Linked`): the element that the map has for a
  key is the element of the list with that key.  So each operation is one on the list
  alone, and `held` tells what the cache has for a key after it.
-/
import DistCache.L1

namespace DistCache

namespace L1Cache

/-- The element of the list with a key. -/
def held (c : L1Cache) (key : Key) : Option L1Element := c.evictList.find? fun e => e.key = key

/-- The map has, for each key, a pointer to the only element with that key. -/
structure Linked (c : L1Cache) : Prop where
  ids : (c.evictList.map L1Element.id).Nodup
  keys : (c.evictList.map L1Element.key).Nodup
  fresh : ∀ e ∈ c.evictList, e.id < c.nextID
  items : ∀ key, c.items.lookup key = (c.held key).map L1Element.id

theorem linked_new (capacity : ℤ) (defaultTTL : Duration) : (new capacity defaultTTL).Linked where
  ids := List.nodup_nil
  keys := List.nodup_nil
  fresh := by simp [new]
  items _ := Finmap.lookup_empty _

/-- In a list whose elements have distinct keys, the first element with a key is the only
    one. -/
theorem find?_of_nodup {α β : Type} [DecidableEq β] {f : α → β} {l : List α}
    (h : (l.map f).Nodup) {a : α} (ha : a ∈ l) : (l.find? fun b => f b = f a) = some a := by
  induction l with
  | nil => exact absurd ha List.not_mem_nil
  | cons b l ih =>
    rw [List.map_cons, List.nodup_cons] at h
    rcases List.mem_cons.1 ha with rfl | ha
    · simp
    · have hne : f b ≠ f a := fun he => h.1 (he ▸ List.mem_map_of_mem ha)
      rw [List.find?_cons_of_neg (by simpa using hne)]
      exact ih h.2 ha

/-- Removing the element with one of two distinct marks is filtering by the other. -/
theorem eraseP_of_nodup {l : List L1Element} (hid : (l.map L1Element.id).Nodup)
    (hkey : (l.map L1Element.key).Nodup) {e : L1Element} (he : e ∈ l) :
    (l.eraseP fun e' => e'.id = e.id) = l.filter fun e' => e'.key ≠ e.key := by
  induction l with
  | nil => rfl
  | cons a l ih =>
    rw [List.map_cons, List.nodup_cons] at hid hkey
    rcases List.mem_cons.1 he with rfl | he
    · rw [List.eraseP_cons_of_pos (by simp), List.filter_cons_of_neg (by simp), eq_comm,
        List.filter_eq_self]
      intro e' he'
      simpa using fun h : e'.key = e.key => hkey.1 (h ▸ List.mem_map_of_mem he')
    · have hi : a.id ≠ e.id := fun h => hid.1 (h ▸ List.mem_map_of_mem he)
      have hk : a.key ≠ e.key := fun h => hkey.1 (h ▸ List.mem_map_of_mem he)
      rw [List.eraseP_cons_of_neg (by simpa using hi), List.filter_cons_of_pos (by simpa using hk),
        ih hid.2 hkey.2 he]

variable {c : L1Cache} {e : L1Element} {key k : Key}

theorem held_key (h : c.held key = some e) : e.key = key := by
  simpa using List.find?_some h

theorem mem_of_held (h : c.held key = some e) : e ∈ c.evictList := List.mem_of_find?_eq_some h

theorem Linked.held_of_mem (h : c.Linked) (he : e ∈ c.evictList) : c.held e.key = some e :=
  find?_of_nodup h.keys he

/-- The map and the list agree. -/
theorem Linked.element_eq (h : c.Linked) (key : Key) : c.element key = c.held key := by
  rcases hf : c.held key with _ | e
  · simp [element, h.items, hf]
  · have hid : (c.evictList.find? fun e' => e'.id = e.id) = some e :=
      find?_of_nodup h.ids (mem_of_held hf)
    simp [element, h.items, hf, hid]

theorem Linked.remove_eq (h : c.Linked) (he : e ∈ c.evictList) {e' : L1Element} (hid : e'.id = e.id) :
    c.remove e' = c.evictList.filter fun e' => e'.key ≠ e.key := by
  rw [remove, hid, eraseP_of_nodup h.ids h.keys he]

/-- The elements of the other keys stay. -/
theorem find?_filter_key (l : List L1Element) (key k : Key) :
    (l.filter fun e' => e'.key ≠ key).find? (fun e => e.key = k) =
      if k = key then none else l.find? fun e => e.key = k := by
  rw [List.find?_filter]
  split_ifs with hk
  · subst hk
    simp
  · congr 1
    funext e
    by_cases he : e.key = k
    · simp [he, hk]
    · simp [he]

/-! ## Removing and moving an element -/

theorem Linked.held_removeElement (h : c.Linked) (he : e ∈ c.evictList) :
    (c.removeElement e).held k = if k = e.key then none else c.held k := by
  rw [held, removeElement, h.remove_eq he rfl, find?_filter_key]
  rfl

theorem Linked.removeElement (h : c.Linked) (he : e ∈ c.evictList) : (c.removeElement e).Linked := by
  have hlist : (c.removeElement e).evictList = c.evictList.filter fun e' => e'.key ≠ e.key :=
    h.remove_eq he rfl
  refine ⟨?_, ?_, ?_, ?_⟩
  · rw [hlist]; exact h.ids.sublist (List.filter_sublist.map _)
  · rw [hlist]; exact h.keys.sublist (List.filter_sublist.map _)
  · intro e' he'
    rw [hlist] at he'
    exact h.fresh e' (List.mem_of_mem_filter he')
  · intro key
    rw [h.held_removeElement he]
    show (c.items.erase e.key).lookup key = _
    split_ifs with hk
    · rw [hk]; exact Finmap.lookup_erase _ _
    · rw [Finmap.lookup_erase_ne hk]; exact h.items key

/-- The element at the front may hold a new value. -/
theorem Linked.held_moveToFront (h : c.Linked) (he : e ∈ c.evictList) (e' : L1Element)
    (hid : e'.id = e.id) (hkey : e'.key = e.key) :
    (c.moveToFront e').held k = if k = e.key then some e' else c.held k := by
  rw [held, moveToFront, h.remove_eq he hid, List.find?_cons, find?_filter_key, hkey]
  by_cases hk : k = e.key
  · simp [hk]
  · simp only [hk, Ne.symm hk, decide_false, if_false]
    rfl

theorem Linked.moveToFront (h : c.Linked) (he : e ∈ c.evictList) (e' : L1Element)
    (hid : e'.id = e.id) (hkey : e'.key = e.key) : (c.moveToFront e').Linked := by
  have hlist : (c.moveToFront e').evictList =
      e' :: c.evictList.filter fun e' => e'.key ≠ e.key := by
    show e' :: c.remove e' = _
    rw [h.remove_eq he hid]
  have hmem : ∀ a ∈ c.evictList.filter fun e' => e'.key ≠ e.key, a ∈ c.evictList ∧ a ≠ e := by
    intro a ha
    obtain ⟨ha, hne⟩ := List.mem_filter.1 ha
    refine ⟨ha, ?_⟩
    rintro rfl
    simp at hne
  refine ⟨?_, ?_, ?_, ?_⟩
  · rw [hlist, List.map_cons, List.nodup_cons]
    refine ⟨?_, h.ids.sublist (List.filter_sublist.map _)⟩
    rintro hm
    obtain ⟨a, ha, hai⟩ := List.mem_map.1 hm
    obtain ⟨ha, hne⟩ := hmem a ha
    exact hne (List.inj_on_of_nodup_map h.ids ha he (hai.trans hid))
  · rw [hlist, List.map_cons, List.nodup_cons, hkey]
    refine ⟨?_, h.keys.sublist (List.filter_sublist.map _)⟩
    rintro hm
    obtain ⟨a, ha, hak⟩ := List.mem_map.1 hm
    obtain ⟨ha, hne⟩ := hmem a ha
    exact hne (List.inj_on_of_nodup_map h.keys ha he hak)
  · intro a ha
    rw [hlist] at ha
    rcases List.mem_cons.1 ha with rfl | ha
    · rw [hid]; exact h.fresh e he
    · exact h.fresh a (hmem a ha).1
  · intro key
    rw [h.held_moveToFront he e' hid hkey]
    show c.items.lookup key = _
    rw [h.items]
    split_ifs with hk
    · rw [hk, h.held_of_mem he, Option.map_some, Option.map_some, hid]
    · rfl

/-! ## New entries -/

theorem held_push {value : Value} {expiresAt : Time} :
    (c.push key value expiresAt).held k =
      if k = key then some ⟨c.nextID, key, value, expiresAt⟩ else c.held k := by
  rw [held, push, List.find?_cons]
  by_cases hk : k = key
  · simp [hk]
  · simp only [hk, Ne.symm hk, decide_false, if_false]
    rfl

theorem Linked.push (h : c.Linked) (hkey : c.held key = none) (value : Value) (expiresAt : Time) :
    (c.push key value expiresAt).Linked := by
  refine ⟨?_, ?_, ?_, ?_⟩
  · show (c.nextID :: c.evictList.map L1Element.id).Nodup
    rw [List.nodup_cons]
    refine ⟨?_, h.ids⟩
    intro hm
    obtain ⟨a, ha, hai⟩ := List.mem_map.1 hm
    exact absurd hai (h.fresh a ha).ne
  · show (key :: c.evictList.map L1Element.key).Nodup
    rw [List.nodup_cons]
    refine ⟨?_, h.keys⟩
    intro hm
    obtain ⟨a, ha, rfl⟩ := List.mem_map.1 hm
    rw [h.held_of_mem ha] at hkey
    cases hkey
  · intro a ha
    rcases List.mem_cons.1 ha with rfl | ha
    · exact Nat.lt_succ_self _
    · exact (h.fresh a ha).trans (Nat.lt_succ_self _)
  · intro k
    rw [held_push]
    show (c.items.insert key c.nextID).lookup k = _
    split_ifs with hk
    · rw [hk]; exact Finmap.lookup_insert _
    · rw [Finmap.lookup_insert_of_ne _ hk]; exact h.items k

theorem Linked.evictOldest (h : c.Linked) : c.evictOldest.Linked := by
  unfold L1Cache.evictOldest
  split
  · exact h
  · rename_i e he
    exact h.removeElement (List.mem_of_getLast? he)

/-- Evicting keeps the front of a list of at least two elements, and adds nothing. -/
theorem Linked.held_evictOldest (h : c.Linked) (k : Key) :
    c.evictOldest.held k = c.held k ∨ c.evictOldest.held k = none := by
  unfold L1Cache.evictOldest
  split
  · exact Or.inl rfl
  · rename_i e he
    rw [h.held_removeElement (List.mem_of_getLast? he)]
    split_ifs
    · exact Or.inr rfl
    · exact Or.inl rfl

theorem Linked.held_evictOldest_front (h : c.Linked) {l : List L1Element}
    (hl : c.evictList = e :: l) (hne : l ≠ []) : c.evictOldest.held e.key = some e := by
  have hmem : e ∈ c.evictList := hl ▸ List.mem_cons_self
  obtain ⟨l, a, rfl⟩ := (List.eq_nil_or_concat l).resolve_left hne
  have hlast : c.evictList.getLast? = some a := by
    rw [hl, List.concat_eq_append, ← List.cons_append, List.getLast?_concat]
  have ha : a ∈ c.evictList := List.mem_of_getLast? hlast
  have hkey : e.key ≠ a.key := by
    have hnd := h.keys
    rw [hl, List.map_cons, List.nodup_cons] at hnd
    exact fun he => hnd.1 (he ▸ List.mem_map_of_mem (by simp))
  simp only [L1Cache.evictOldest, hlast]
  rw [h.held_removeElement ha, if_neg hkey, h.held_of_mem hmem]

/-! ## The operations -/

/-- The element of a key, unless it is expired. -/
def live (c : L1Cache) (now : Time) (key : Key) : Option L1Element :=
  (c.held key).filter fun e => !decide (e.expiresAt < now)

/-- What `Get` does on the list. -/
theorem Linked.get_eq (h : c.Linked) (now : Time) (key : Key) :
    c.get now key =
      match c.held key with
      | none => (none, c)
      | some e =>
        if e.expiresAt < now then (none, c.removeElement e) else (some e.value, c.moveToFront e) := by
  have helement := h.element_eq key
  rcases hf : c.held key with _ | e
  · simp only [L1Cache.get, helement, hf]
  · simp only [L1Cache.get, helement, hf]

theorem Linked.get_fst (h : c.Linked) (now : Time) (key : Key) :
    (c.get now key).1 = (c.live now key).map L1Element.value := by
  rw [h.get_eq, live]
  rcases c.held key with _ | e
  · rfl
  · dsimp only
    split_ifs with hx <;> simp [Option.filter, hx]

theorem Linked.held_get (h : c.Linked) (now : Time) (key k : Key) :
    (c.get now key).2.held k = if k = key then c.live now key else c.held k := by
  rw [h.get_eq, live]
  rcases he : c.held key with _ | e
  · split_ifs with hk
    · rw [hk]; exact he
    · rfl
  · obtain rfl := held_key he
    dsimp only
    split_ifs with hx hk hk
    · rw [h.held_removeElement (mem_of_held he), if_pos hk]; simp [Option.filter, hx]
    · rw [h.held_removeElement (mem_of_held he), if_neg hk]
    · rw [h.held_moveToFront (mem_of_held he) e rfl rfl, if_pos hk]; simp [Option.filter, hx]
    · rw [h.held_moveToFront (mem_of_held he) e rfl rfl, if_neg hk]

theorem Linked.get (h : c.Linked) (now : Time) (key : Key) : (c.get now key).2.Linked := by
  rw [h.get_eq]
  rcases he : c.held key with _ | e
  · exact h
  · dsimp only
    split_ifs
    · exact h.removeElement (mem_of_held he)
    · exact h.moveToFront (mem_of_held he) e rfl rfl

theorem Linked.held_delete (h : c.Linked) (key k : Key) :
    (c.delete key).held k = if k = key then none else c.held k := by
  unfold L1Cache.delete
  rw [h.element_eq]
  rcases he : c.held key with _ | e
  · split_ifs with hk
    · rw [hk]; exact he
    · rfl
  · obtain rfl := held_key he
    exact h.held_removeElement (mem_of_held he)

theorem Linked.delete (h : c.Linked) (key : Key) : (c.delete key).Linked := by
  unfold L1Cache.delete
  rw [h.element_eq]
  rcases he : c.held key with _ | e
  · exact h
  · exact h.removeElement (mem_of_held he)

section
variable (now : Time) (key) (value : Value) (ttl : Duration)

theorem Linked.set (h : c.Linked) : (c.set now key value ttl).Linked := by
  unfold L1Cache.set
  rw [h.element_eq]
  rcases he : c.held key with _ | e
  · have hpush := h.push he value (c.expiry now ttl)
    dsimp only
    split_ifs
    · exact hpush.evictOldest
    · exact hpush
  · exact h.moveToFront (mem_of_held he) { e with value, expiresAt := c.expiry now ttl } rfl rfl

/-- `Set` never evicts the entry it makes. -/
theorem Linked.held_set_self (h : c.Linked) :
    ∃ id, (c.set now key value ttl).held key = some ⟨id, key, value, c.expiry now ttl⟩ := by
  unfold L1Cache.set
  rw [h.element_eq]
  rcases he : c.held key with _ | e
  · refine ⟨c.nextID, ?_⟩
    dsimp only
    split_ifs with hlen
    · refine (h.push he value (c.expiry now ttl)).held_evictOldest_front rfl ?_
      intro hnil
      have hpos := c.capacity_pos
      simp [L1Cache.push, hnil] at hlen
      omega
    · rw [held_push, if_pos rfl]
  · obtain rfl := held_key he
    exact ⟨e.id, (h.held_moveToFront (mem_of_held he)
      { e with value, expiresAt := c.expiry now ttl } rfl rfl).trans (if_pos rfl)⟩

/-- `Set` may evict the entry of another key. -/
theorem Linked.held_set_of_ne (h : c.Linked) (hk : k ≠ key) :
    (c.set now key value ttl).held k = c.held k ∨ (c.set now key value ttl).held k = none := by
  unfold L1Cache.set
  rw [h.element_eq]
  rcases he : c.held key with _ | e
  · have hpush : (c.push key value (c.expiry now ttl)).held k = c.held k := by
      rw [held_push, if_neg hk]
    dsimp only
    split_ifs
    · rw [← hpush]
      exact (h.push he value (c.expiry now ttl)).held_evictOldest k
    · exact Or.inl hpush
  · obtain rfl := held_key he
    exact Or.inl ((h.held_moveToFront (mem_of_held he)
      { e with value, expiresAt := c.expiry now ttl } rfl rfl).trans (if_neg hk))

end

end L1Cache

end DistCache
