/-
  The client-side cache is a least-recently-used cache whose items expire (`Lib.Lru`).

  The abstraction of a cache is its list without the numbers of the elements (`lru`).  Every
  call commutes with a step of the reference, and answers alike (`step_refines`); the map and
  the list correspond after every call (`Linked.step`), and the list fits the capacity.
-/
import DistCache.Lib.Lru
import DistCache.Proof.L1

namespace DistCache

open Lib

/-- The entry of an element. -/
def L1Element.item (e : L1Element) : Lru.Item Key Value Time := ⟨e.key, e.value, e.expiresAt⟩

namespace L1Cache

/-- The entries of the cache, in list order. -/
def lru (c : L1Cache) : List (Lru.Item Key Value Time) := c.evictList.map L1Element.item

/-- A call as an operation of the reference: a `Set` computes its expiry. -/
def Call.op (c : L1Cache) : Call → Lru.Op Key Value Time
  | .get now key => .get now key
  | .set now key value ttl => .set key value (c.expiry now ttl)
  | .delete key => .delete key
  | .clear => .clear

variable {c : L1Cache} {e : L1Element} {key : Key} {now : Time}

/-! ## The parts of a call -/

theorem find_lru (c : L1Cache) (key : Key) :
    Lru.find c.lru key = (c.held key).map L1Element.item := List.find?_map ..

theorem without_lru (c : L1Cache) (key : Key) :
    Lru.without c.lru key = (c.evictList.filter fun e => e.key ≠ key).map L1Element.item :=
  List.filter_map ..

theorem Linked.lru_removeElement (h : c.Linked) (he : e ∈ c.evictList) :
    (c.removeElement e).lru = Lru.without c.lru e.key := by
  rw [without_lru, lru, L1Cache.removeElement, h.remove_eq he rfl]

theorem Linked.lru_moveToFront (h : c.Linked) (he : e ∈ c.evictList) {e' : L1Element}
    (hid : e'.id = e.id) : (c.moveToFront e').lru = e'.item :: Lru.without c.lru e.key := by
  rw [without_lru, lru, L1Cache.moveToFront, h.remove_eq he hid, List.map_cons]

theorem without_of_held (h : c.held key = none) : Lru.without c.lru key = c.lru := by
  rw [without_lru, List.filter_eq_self.2]
  · rfl
  · intro e he
    simpa using List.find?_eq_none.1 h e he

/-- Evicting drops the last element. -/
theorem Linked.evictList_evictOldest (h : c.Linked) :
    c.evictOldest.evictList = c.evictList.dropLast := by
  rcases List.eq_nil_or_concat c.evictList with hl | ⟨l, e, hl⟩
  · simp [L1Cache.evictOldest, hl]
  · rw [List.concat_eq_append] at hl
    have hlast : c.evictList.getLast? = some e := by rw [hl, List.getLast?_concat]
    have hids := h.ids
    rw [hl, List.map_append, List.nodup_append] at hids
    have hne : ∀ a ∈ l, ¬ a.id = e.id := by
      intro a ha
      exact hids.2.2 _ (List.mem_map_of_mem ha) _ (by simp)
    simp only [L1Cache.evictOldest, hlast, L1Cache.removeElement, remove]
    rw [hl, List.dropLast_concat, List.eraseP_append_right _ (by simpa using hne)]
    simp

/-! ## One call -/

theorem Linked.clear (c : L1Cache) : c.clear.Linked where
  ids := List.nodup_nil
  keys := List.nodup_nil
  fresh := by simp [L1Cache.clear]
  items _ := Finmap.lookup_empty _

theorem Linked.step (h : c.Linked) (call : Call) : (c.step call).Linked := by
  cases call with
  | get now key => exact h.get now key
  | set now key value ttl => exact h.set key now value ttl
  | delete key => exact h.delete key
  | clear => exact Linked.clear c

theorem hit_lru (c : L1Cache) (now : Time) (key : Key) :
    Lru.hit c.lru now key = (c.live now key).map L1Element.item := by
  rw [Lru.hit, find_lru, live]
  rcases c.held key with _ | e
  · rfl
  · by_cases hx : e.expiresAt < now
    · simp [Option.filter, L1Element.item, hx]
    · simp [Option.filter, L1Element.item, hx]

theorem Linked.reply_refines (h : c.Linked) (call : Call) :
    c.reply call = Lru.reply c.lru (call.op c) := by
  cases call with
  | get now key =>
    show (c.get now key).1 = (Lru.hit c.lru now key).map Lru.Item.value
    rw [h.get_fst, hit_lru, Option.map_map]
    rfl
  | set now key value ttl => rfl
  | delete key => rfl
  | clear => rfl

theorem Linked.lru_get (h : c.Linked) (now : Time) (key : Key) :
    (c.get now key).2.lru = Lru.step c.capacity c.lru (.get now key) := by
  simp only [Lru.step, hit_lru, live]
  rw [h.get_eq]
  rcases he : c.held key with _ | e
  · exact (without_of_held he).symm
  · obtain rfl := held_key he
    have hmem := mem_of_held he
    by_cases hx : e.expiresAt < now
    · simp only [Option.filter, hx, if_true, decide_true, Bool.not_true]
      exact h.lru_removeElement hmem
    · simp only [Option.filter, hx, if_false, decide_false, Bool.not_false]
      exact h.lru_moveToFront hmem rfl

theorem Linked.lru_set (h : c.Linked) (now : Time) (key : Key) (value : Value) (ttl : Duration) :
    (c.set now key value ttl).lru =
      Lru.step c.capacity c.lru (.set key value (c.expiry now ttl)) := by
  simp only [Lru.step, find_lru]
  unfold L1Cache.set
  rw [h.element_eq]
  rcases he : c.held key with _ | e
  · have hpush := h.push he value (c.expiry now ttl)
    have hlen : (c.push key value (c.expiry now ttl)).evictList.length = c.lru.length + 1 := by
      simp [L1Cache.push, lru]
    have hlru : (c.push key value (c.expiry now ttl)).lru =
        ⟨key, value, c.expiry now ttl⟩ :: c.lru := rfl
    have hcap : (c.push key value (c.expiry now ttl)).capacity = c.capacity := rfl
    dsimp only [Option.map_none]
    by_cases hfull : c.capacity ≤ c.lru.length
    · have hne : c.lru ≠ [] := by
        have hpos := c.capacity_pos
        intro hnil
        rw [hnil] at hfull
        simp at hfull
        omega
      rw [if_pos (by rw [hlen, hcap]; omega), if_pos hfull, lru, hpush.evictList_evictOldest,
        List.map_dropLast]
      show (L1Cache.lru (c.push key value (c.expiry now ttl))).dropLast = _
      rw [hlru, List.dropLast_cons_of_ne_nil hne]
    · rw [if_neg (by rw [hlen, hcap]; omega), if_neg hfull, hlru]
  · obtain rfl := held_key he
    exact h.lru_moveToFront (mem_of_held he) rfl

theorem Linked.lru_delete (h : c.Linked) (key : Key) :
    (c.delete key).lru = Lru.without c.lru key := by
  unfold L1Cache.delete
  rw [h.element_eq]
  rcases he : c.held key with _ | e
  · exact (without_of_held he).symm
  · obtain rfl := held_key he
    exact h.lru_removeElement (mem_of_held he)

/-- Every call is a step of the reference. -/
theorem Linked.step_refines (h : c.Linked) (call : Call) :
    (c.step call).lru = Lru.step c.capacity c.lru (call.op c) := by
  cases call with
  | get now key => exact h.lru_get now key
  | set now key value ttl => exact h.lru_set now key value ttl
  | delete key => exact h.lru_delete key
  | clear => rfl

/-- The settings of a cache. -/
def settings (c : L1Cache) : ℕ × Duration := (c.capacity, c.defaultTTL)

theorem settings_evictOldest (c : L1Cache) : c.evictOldest.settings = c.settings := by
  unfold L1Cache.evictOldest
  split
  · rfl
  · rfl

theorem settings_step (c : L1Cache) (call : Call) : (c.step call).settings = c.settings := by
  cases call with
  | get now key =>
    simp only [L1Cache.step, L1Cache.get]
    split
    · rfl
    · split_ifs
      · rfl
      · rfl
  | set now key value ttl =>
    simp only [L1Cache.step, L1Cache.set]
    split
    · rfl
    · split_ifs
      · exact settings_evictOldest _
      · rfl
  | delete key =>
    simp only [L1Cache.step, L1Cache.delete]
    split
    · rfl
    · rfl
  | clear => rfl

/-- The expiry of a `Set` depends on the settings only. -/
theorem Call.op_congr {c c' : L1Cache} (h : c'.settings = c.settings) (call : Call) :
    call.op c' = call.op c := by
  have httl : c'.defaultTTL = c.defaultTTL := congrArg Prod.snd h
  cases call with
  | set now key value ttl => simp only [Call.op, expiry, httl]
  | get now key => rfl
  | delete key => rfl
  | clear => rfl

/-! ## Runs -/

/-- **The cache is an LRU cache with expiry.**  After any calls, the entries in list order and
    all answers are those of the reference; the keys are in the order of their most recent `Set`
    or successful `Get`; and a hit returns what the latest `Set` of its key has written, until
    its expiry. -/
theorem l1_refines_lru (capacity : ℤ) (defaultTTL : Duration) (calls : List Call) :
    let c₀ := new capacity defaultTTL
    let c := run step c₀ calls
    let ops := calls.map (Call.op c₀)
    c.lru = run (Lru.step c₀.capacity) [] ops ∧
      outputs step reply c₀ calls = outputs (Lru.step c₀.capacity) Lru.reply [] ops ∧
      (c.lru.map Lru.Item.key).Sublist (distinct ∅ (Lru.uses c₀.capacity ops)) ∧
      ∀ now key value, (c.get now key).1 = some value →
        ∃ expiresAt, Lru.lastSet key ops = some (value, expiresAt) ∧ now ≤ expiresAt := by
  intro c₀ c ops
  have hinv : ∀ c call, Linked c ∧ c.settings = c₀.settings →
      Linked (c.step call) ∧ (c.step call).settings = c₀.settings :=
    fun c call h => ⟨h.1.step call, (settings_step c call).trans h.2⟩
  have hstart : Linked c₀ ∧ c₀.settings = c₀.settings := ⟨linked_new capacity defaultTTL, rfl⟩
  obtain ⟨hlru, hout⟩ : c.lru = run (Lru.step c₀.capacity) [] ops ∧
      outputs step reply c₀ calls = outputs (Lru.step c₀.capacity) Lru.reply [] ops := by
    refine run_refines (I := fun c => Linked c ∧ c.settings = c₀.settings) (f := lru)
      (g := Call.op c₀) hinv (fun c call h => ?_) (fun c call h => ?_) hstart calls
    · have hcap : c.capacity = c₀.capacity := congrArg Prod.fst h.2
      rw [h.1.step_refines, Call.op_congr h.2, hcap]
    · rw [h.1.reply_refines, Call.op_congr h.2]
  refine ⟨hlru, hout, hlru ▸ Lru.keys_sublist_uses c₀.capacity ops, fun now key value hget => ?_⟩
  have hlinked : c.Linked := (run_inv hinv hstart calls).1
  rw [hlinked.get_fst, live] at hget
  obtain ⟨e, he, rfl⟩ := Option.map_eq_some_iff.1 hget
  obtain ⟨hheld, hx⟩ := Option.filter_eq_some_iff.1 he
  obtain rfl := held_key hheld
  have hmem : e.item ∈ run (Lru.step c₀.capacity) [] ops := by
    rw [← hlru]
    exact List.mem_map_of_mem (mem_of_held hheld)
  exact ⟨e.expiresAt, Lru.latest_set c₀.capacity ops e.item hmem, by simpa using hx⟩

/-- **The map and the list correspond.**  After any calls on a new cache, every pointer of the
    map leads to an element of the list with that key, and every element is the one the map has for
    its key; the keys are distinct, and there are at most as many elements as the capacity,
    which is the one asked for, or 1000. -/
theorem l1_structure (capacity : ℤ) (defaultTTL : Duration) (calls : List Call) :
    let c := run step (new capacity defaultTTL) calls
    (∀ key id, c.items.lookup key = some id → ∃ e ∈ c.evictList, e.id = id ∧ e.key = key) ∧
      (∀ e ∈ c.evictList, c.items.lookup e.key = some e.id) ∧
      (c.evictList.map L1Element.id).Nodup ∧ (c.evictList.map L1Element.key).Nodup ∧
      c.len ≤ c.capacity ∧ 1 ≤ c.capacity ∧
      (c.capacity : ℤ) = if capacity ≤ 0 then 1000 else capacity := by
  intro c
  obtain ⟨h, hlen, hset⟩ : c.Linked ∧ c.lru.length ≤ c.capacity ∧
      c.settings = (new capacity defaultTTL).settings := by
    refine run_inv (I := fun c => Linked c ∧ c.lru.length ≤ c.capacity ∧
      c.settings = (new capacity defaultTTL).settings) ?_
      ⟨linked_new capacity defaultTTL, Nat.zero_le _, rfl⟩ calls
    rintro c call ⟨h, hlen, hset⟩
    have hkept := settings_step c call
    have hcap : (c.step call).capacity = c.capacity := congrArg Prod.fst hkept
    refine ⟨h.step call, ?_, hkept.trans hset⟩
    rw [h.step_refines, hcap]
    exact Lru.length_step c.capacity_pos hlen _
  refine ⟨fun key id hid => ?_, fun e he => ?_, h.ids, h.keys, ?_, c.capacity_pos, ?_⟩
  · rw [h.items] at hid
    obtain ⟨e, he, rfl⟩ := Option.map_eq_some_iff.1 hid
    exact ⟨e, mem_of_held he, rfl, held_key he⟩
  · rw [h.items, h.held_of_mem he]
    rfl
  · rwa [lru, List.length_map] at hlen
  · have hcap : c.capacity = if capacity ≤ 0 then 1000 else capacity.toNat := congrArg Prod.fst hset
    rw [hcap]
    split_ifs with hpos
    · rfl
    · omega

end L1Cache

end DistCache
