/-
  The statistics of the store balance.

  Every entry that a `Set` adds leaves the store in one way: it is overwritten, deleted, or
  expired by a read or by the sweeper.  The counters are compared with numbers that do not
  wrap around (`Balanced`); a run shorter than `2^64` keeps them in range.
-/
import DistCache.Proof.Placement

namespace DistCache

/-! ## Numbers of entries -/

namespace Items

variable {items : Items} {key : Key}

theorem keys_insert (e : Entry) : (items.insert key e).keys = insert key items.keys := by
  ext k
  rw [Finset.mem_insert, Finmap.mem_keys, Finmap.mem_keys, Finmap.mem_insert]

theorem card_insert_of_mem (h : key ∈ items) (e : Entry) :
    (items.insert key e).keys.card = items.keys.card := by
  rw [keys_insert, Finset.insert_eq_of_mem (Finmap.mem_keys.2 h)]

theorem card_insert_of_notMem (h : key ∉ items) (e : Entry) :
    (items.insert key e).keys.card = items.keys.card + 1 := by
  rw [keys_insert, Finset.card_insert_of_notMem fun hk => h (Finmap.mem_keys.1 hk)]

theorem card_erase (h : key ∈ items) : (items.erase key).keys.card + 1 = items.keys.card := by
  have hkeys : (items.erase key).keys = items.keys.erase key := by
    ext k
    rw [Finset.mem_erase, Finmap.mem_keys, Finmap.mem_keys, Finmap.mem_erase]
  rw [hkeys, Finset.card_erase_add_one (Finmap.mem_keys.2 h)]

end Items

namespace Store

/-- A pass removes as many entries as it counts. -/
theorem Sampled.card {items items' : Items} {now : Time} {sample : List Key}
    (h : Sampled items now sample items') :
    items'.keys.card + sample.countP (expiredAt items now) = items.keys.card := by
  let gone := (sample.filter (expiredAt items now)).toFinset
  have hgone : gone.card = sample.countP (expiredAt items now) := by
    rw [List.toFinset_card_of_nodup (h.nodup.filter _), List.countP_eq_length_filter]
  have hsub : gone ⊆ items.keys := by
    intro k hk
    exact Finmap.mem_keys.2 (h.mem k (List.mem_filter.1 (List.mem_toFinset.1 hk)).1)
  have hkeys : items'.keys = items.keys \ gone := by
    ext k
    rw [Finset.mem_sdiff, Finmap.mem_keys, Finmap.mem_keys, List.mem_toFinset, List.mem_filter,
      ← Finmap.lookup_isSome, ← Finmap.lookup_isSome, h.lookup k]
    split_ifs with hx <;> simp [hx]
  rw [hkeys, ← hgone, Finset.card_sdiff_add_card_eq_card hsub]

/-- The number of entries physically present. -/
def size (s : Store) : ℕ := (s.shards.map fun items => items.keys.card).sum

theorem sum_set_add : ∀ {l : List ℕ} {i a : ℕ} (b : ℕ), l[i]? = some a →
    (l.set i b).sum + a = l.sum + b
  | [], _, _, _, h => by simp at h
  | _ :: l, 0, a, b, h => by
    obtain rfl := Option.some.inj h
    simp only [List.set_cons_zero, List.sum_cons]
    omega
  | c :: l, i + 1, a, b, h => by
    have ih := sum_set_add b (List.getElem?_cons_succ ▸ h)
    simp only [List.set_cons_succ, List.sum_cons]
    omega

theorem size_putIndex (s : Store) {index : ℕ} {items : Items}
    (h : s.shards[index]? = some items) (items' : Items) :
    (s.putIndex index items').size + items.keys.card = s.size + items'.keys.card := by
  unfold size putIndex
  rw [List.map_set]
  refine sum_set_add _ ?_
  rw [List.getElem?_map, h]
  rfl

section
variable (s : Store) (key : Key)

theorem mem_getShard {s : Store} {key : Key} {e : Entry} (he : s.entry key = some e) :
    key ∈ s.getShard key :=
  Finmap.lookup_isSome.1 (by rw [entry] at he; rw [he]; rfl)

theorem size_putShard (items : Items) :
    (s.putShard key items).size + (s.getShard key).keys.card = s.size + items.keys.card :=
  s.size_putIndex (List.getElem?_eq_getElem (s.shardIndex_lt key)) items

theorem size_insert (e : Entry) :
    (s.putShard key ((s.getShard key).insert key e)).size + (s.entry key).isSome.toNat =
      s.size + 1 := by
  have hput := s.size_putShard key ((s.getShard key).insert key e)
  rcases he : s.entry key with _ | e'
  · have hcard := Items.card_insert_of_notMem (Finmap.lookup_eq_none.1 he) e
    simp only [Option.isSome_none, Bool.toNat_false]
    omega
  · have hcard := Items.card_insert_of_mem (mem_getShard he) e
    simp only [Option.isSome_some, Bool.toNat_true]
    omega

theorem size_erase {e : Entry} (he : s.entry key = some e) :
    (s.putShard key ((s.getShard key).erase key)).size + 1 = s.size := by
  have hput := s.size_putShard key ((s.getShard key).erase key)
  have hcard := Items.card_erase (mem_getShard he)
  omega

end

/-! ## The balance -/

def Act.isGet : Act → Bool
  | .get .. => true
  | _ => false

def Act.isSet : Act → Bool
  | .set .. => true
  | _ => false

/-- The call is a `Set` of a key that is physically present. -/
def overwrites (s : Store) : Act → Bool
  | .set _ key _ _ => (s.entry key).isSome
  | _ => false

/-- How many calls of a run overwrite an entry. -/
def overwritten (s : Store) : List Act → ℕ
  | [] => 0
  | a :: acts =>
    (s.overwrites a).toNat +
      match s.exec a with
      | none => 0
      | some (_, s') => s'.overwritten acts

/-- The counters, as numbers modulo `2^64`, and what they add up to after `gets` reads, `sets`
    writes and `lost` overwritten entries. -/
def Balanced (s : Store) (gets sets lost : ℕ) : Prop :=
  ∃ hits misses deletes expirations : ℕ,
    s.stats = ⟨hits.toUInt64, misses.toUInt64, sets.toUInt64, deletes.toUInt64,
      expirations.toUInt64⟩ ∧
    hits + misses = gets ∧ sets = s.size + deletes + expirations + lost

theorem toUInt64_add (m n : ℕ) : (m + n).toUInt64 = m.toUInt64 + n.toUInt64 := UInt64.ofNat_add m n

theorem toUInt64_succ (n : ℕ) : (n + 1).toUInt64 = n.toUInt64 + 1 := toUInt64_add n 1

theorem Balanced.swept {s : Store} {gets sets lost index : ℕ} {items items' : Items} {now : Time}
    {sample : List Key} (h : s.Balanced gets sets lost) (hitems : s.shards[index]? = some items)
    (hs : Sampled items now sample items') :
    (s.swept index items' (sample.countP (expiredAt items now))).Balanced gets sets lost := by
  obtain ⟨hits, misses, deletes, expirations, hstats, hg, hb⟩ := h
  refine ⟨hits, misses, deletes, expirations + sample.countP (expiredAt items now), ?_, hg, ?_⟩
  · simp only [Store.swept, Store.count, putIndex, hstats, toUInt64_add]
  · have hsize := s.size_putIndex hitems items'
    have hcard := hs.card
    show sets = (s.putIndex index items').size + _ + _ + _
    omega

/-- **One call** keeps the balance. -/
theorem Balanced.exec {s s' : Store} {gets sets lost : ℕ} {a : Act} {reply : Reply}
    (h : s.Balanced gets sets lost) (ha : s.exec a = some (reply, s')) :
    s'.Balanced (gets + a.isGet.toNat) (sets + a.isSet.toNat)
      (lost + (s.overwrites a).toNat) := by
  have heff := exec_effect ha
  obtain ⟨hits, misses, deletes, expirations, hstats, rfl, hb⟩ := h
  cases heff with
  | hit he hx =>
    refine ⟨hits + 1, misses, deletes, expirations, ?_, ?_, hb⟩
    · simp only [Store.count, hstats, toUInt64_succ, Act.isSet, Bool.toNat_false, Nat.add_zero]
    · simp only [Act.isGet, Bool.toNat_true]
      omega
  | miss he =>
    refine ⟨hits, misses + 1, deletes, expirations, ?_, rfl, hb⟩
    simp only [Store.count, hstats, toUInt64_succ, Act.isSet, Bool.toNat_false, Nat.add_zero]
  | lapse he hx =>
    refine ⟨hits, misses + 1, deletes, expirations + 1, ?_, rfl, ?_⟩
    · simp only [Store.count, putShard, hstats, toUInt64_succ, Act.isSet, Bool.toNat_false,
        Nat.add_zero]
    · have hsize := s.size_erase _ he
      show sets + 0 = (s.putShard _ _).size + _ + _ + (lost + 0)
      omega
  | set now key value ttl =>
    refine ⟨hits, misses, deletes, expirations, ?_, rfl, ?_⟩
    · simp only [Store.set, Store.count, putShard, hstats, Act.isSet, Bool.toNat_true,
        toUInt64_succ]
    · have hsize := s.size_insert key ⟨value, expiryOf now ttl⟩
      show sets + 1 = (s.putShard _ _).size + _ + _ + (lost + (s.entry key).isSome.toNat)
      omega
  | delete he =>
    refine ⟨hits, misses, deletes + 1, expirations, ?_, rfl, ?_⟩
    · simp only [Store.count, putShard, hstats, toUInt64_succ, Act.isSet, Bool.toNat_false,
        Nat.add_zero]
    · have hsize := s.size_erase _ he
      show sets + 0 = (s.putShard _ _).size + _ + _ + (lost + 0)
      omega
  | absent he => exact ⟨hits, misses, deletes, expirations, hstats, rfl, hb⟩
  | @expire now key e he e' ttl =>
    refine ⟨hits, misses, deletes, expirations, hstats, rfl, ?_⟩
    have hsize := s.size_insert key e'
    rw [he] at hsize
    show sets + 0 = (s.putShard _ _).size + _ + _ + (lost + 0)
    simp only [Option.isSome_some, Bool.toNat_true] at hsize
    omega
  | unfound => exact ⟨hits, misses, deletes, expirations, hstats, rfl, hb⟩
  | sweep hs =>
    refine sweepShard_inv (I := fun s => s.Balanced (hits + misses) sets lost) ?_
      ⟨hits, misses, deletes, expirations, hstats, rfl, hb⟩ hs
    intro s₁ items now sample items' h₁ hitems hsample
    exact h₁.swept hitems hsample

/-- **A run** keeps the balance. -/
theorem Balanced.after : ∀ {acts : List Act} {s s' : Store} {gets sets lost : ℕ},
    s.Balanced gets sets lost → s.after acts = some s' →
    s'.Balanced (gets + acts.countP Act.isGet) (sets + acts.countP Act.isSet)
      (lost + s.overwritten acts)
  | [], s, s', _, _, _, h, hs => by
    obtain rfl := Option.some.inj hs
    exact h
  | a :: acts, s, s', gets, sets, lost, h, hs => by
    obtain ⟨⟨reply, s₁⟩, ha, hs⟩ := Option.bind_eq_some_iff.1 hs
    have hrest := (h.exec ha).after hs
    have hcount : ∀ p : Act → Bool, (a :: acts).countP p = (p a).toNat + acts.countP p := by
      intro p
      rw [List.countP_cons, Nat.add_comm]
      cases p a <;> rfl
    have hover : s.overwritten (a :: acts) = (s.overwrites a).toNat + s₁.overwritten acts := by
      simp only [overwritten, ha]
    rw [hcount, hcount, hover, ← Nat.add_assoc, ← Nat.add_assoc, ← Nat.add_assoc]
    exact hrest

theorem newWithShards_balanced (shardCount : ℤ) : (newWithShards shardCount).Balanced 0 0 0 := by
  refine ⟨0, 0, 0, 0, rfl, rfl, ?_⟩
  simp [size, newWithShards]

/-- **The statistics balance.**  After fewer than `2^64` calls and sweeps from a new store, the
    hits and misses are the reads, and every write is still present, was overwritten, deleted
    or expired. -/
theorem stats_balance (shardCount : ℤ) (acts : List Act) (hlen : acts.length < 2 ^ 64)
    (s : Store) (hs : (newWithShards shardCount).after acts = some s) :
    s.stats.hits.toNat + s.stats.misses.toNat = acts.countP Act.isGet ∧
      s.stats.sets.toNat = s.size + s.stats.deletes.toNat + s.stats.expirations.toNat +
        (newWithShards shardCount).overwritten acts := by
  obtain ⟨hits, misses, deletes, expirations, hstats, hg, hb⟩ :=
    (newWithShards_balanced shardCount).after hs
  have hgets := (List.countP_le_length (p := Act.isGet) (l := acts)).trans_lt hlen
  have hsets := (List.countP_le_length (p := Act.isSet) (l := acts)).trans_lt hlen
  have hval : ∀ n : ℕ, n < 2 ^ 64 → n.toUInt64.toNat = n := by
    intro n hn
    rw [Nat.toUInt64, UInt64.toNat_ofNat', Nat.mod_eq_of_lt hn]
  simp only [Nat.zero_add] at hg hb hstats
  rw [hstats]
  dsimp only
  rw [hval hits (by omega), hval misses (by omega), hval _ hsets, hval deletes (by omega),
    hval expirations (by omega)]
  exact ⟨hg, hb⟩

/-- A write is overwritten, and a read misses once it has expired. -/
theorem stats_balance_expired :
    ∃ s, (newWithShards 2).after [.set 0 [1] [7] 0, .set 1 [1] [8] 5, .get 9 [1]] = some s ∧
      s.stats.sets.toNat = s.size + s.stats.deletes.toNat + s.stats.expirations.toNat + 1 := by
  refine ⟨_, rfl, ?_⟩
  refine (stats_balance 2 [.set 0 [1] [7] 0, .set 1 [1] [8] 5, .get 9 [1]] (by decide) _ rfl).2.trans ?_
  decide

end Store

end DistCache
