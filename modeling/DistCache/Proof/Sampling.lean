/-
  What a pass of the sweeper examines.

  `sampleAndExpire` draws keys without repetition: it swaps a random one of the keys from `i`
  on to the position `i`, and looks it up in the map, from which it has deleted some of the
  keys before `i`.  The keys from `i` on stay distinct keys of the map (`draw`), so neither
  `rand.Intn` nor the lookup can panic, whatever the order and the random choices
  (`examineLoop_spec`), and the pass does to the shard what is said of its sample (`Sampled`,
  `sampleAndExpire_eq`).
-/
import DistCache.Sweeper
import DistCache.Proof.Store

namespace DistCache

/-! ## Drawing a key -/

/-- A swap with a later position permutes the keys from `i` on. -/
theorem drop_swap_perm {keys : List Key} {i j : ℕ} (hi : i < keys.length) (hj : j < keys.length)
    (hij : i ≤ j) : (((keys.set i keys[j]).set j keys[i]).drop i).Perm (keys.drop i) := by
  have h0 : 0 < (keys.drop i).length := by
    rw [List.length_drop]
    omega
  have hd : j - i < (keys.drop i).length := by
    rw [List.length_drop]
    omega
  have hperm := List.set_set_perm h0 hd
  simp only [List.getElem_drop, Nat.add_zero, Nat.add_sub_cancel' hij] at hperm
  rw [List.drop_set, if_neg (Nat.not_lt.2 hij), List.drop_set, if_neg (lt_irrefl i), Nat.sub_self]
  exact hperm

/-- One draw: a key from `i` on, and the others of them. -/
theorem draw {keys : List Key} {i : ℕ} (hi : i < keys.length) (random : ℕ) :
    ∃ idx keys' key, intn random (keys.length - i) = some idx ∧ swap keys i (idx + i) = some keys' ∧
      keys'[i]? = some key ∧ (key :: keys'.drop (i + 1)).Perm (keys.drop i) := by
  have hpos : 0 < keys.length - i := Nat.sub_pos_of_lt hi
  have hlt := Nat.mod_lt random hpos
  have hj : random % (keys.length - i) + i < keys.length := by omega
  have hperm := drop_swap_perm hi hj (Nat.le_add_left i _)
  have hswap : swap keys i (random % (keys.length - i) + i) =
      some ((keys.set i keys[random % (keys.length - i) + i]).set
        (random % (keys.length - i) + i) keys[i]) := by
    simp [swap, hi, hj]
  generalize (keys.set i _).set _ keys[i] = keys' at hperm hswap
  have hlen := hperm.length_eq
  rw [List.length_drop, List.length_drop] at hlen
  have hi' : i < keys'.length := by omega
  refine ⟨_, keys', keys'[i], if_neg hpos.ne', hswap, List.getElem?_eq_getElem hi', ?_⟩
  rwa [← List.drop_eq_getElem_cons hi']

namespace Store

/-! ## Samples -/

/-- The entry of a key in a shard is expired. -/
def expiredAt (items : Items) (now : Time) (key : Key) : Bool :=
  (items.lookup key).any fun e => e.isExpired now

/-- What the passes of the sweeper do to a shard: the expired entries of a sample are
    deleted. -/
structure Sampled (items : Items) (now : Time) (sample : List Key) (items' : Items) : Prop where
  nodup : sample.Nodup
  mem : ∀ key ∈ sample, key ∈ items
  lookup : ∀ k, items'.lookup k =
    if k ∈ sample ∧ expiredAt items now k = true then none else items.lookup k

theorem Sampled.nil (items : Items) (now : Time) : Sampled items now [] items where
  nodup := List.nodup_nil
  mem key hkey := absurd hkey List.not_mem_nil
  lookup k := by simp

/-- The key examined first is deleted if it is expired, and is not met again. -/
theorem Sampled.cons {items items₁ items' : Items} {now : Time} {key : Key} {sample : List Key}
    (h : Sampled items₁ now sample items') (hkey : key ∈ items) (hne : key ∉ sample)
    (hfirst : ∀ k, items₁.lookup k =
      if k = key ∧ expiredAt items now k = true then none else items.lookup k) :
    Sampled items now (key :: sample) items' ∧
      sample.countP (expiredAt items₁ now) = sample.countP (expiredAt items now) := by
  have hsame : ∀ k ≠ key, items₁.lookup k = items.lookup k := by
    intro k hk
    rw [hfirst, if_neg fun hc => hk hc.1]
  have hexp : ∀ k ≠ key, expiredAt items₁ now k = expiredAt items now k := by
    intro k hk
    simp only [expiredAt, hsame k hk]
  have hother : ∀ k ∈ sample, k ≠ key := fun k hk he => hne (he ▸ hk)
  refine ⟨⟨List.nodup_cons.2 ⟨hne, h.nodup⟩, fun k hk => ?_, fun k => ?_⟩, ?_⟩
  · rcases List.mem_cons.1 hk with rfl | hk
    · exact hkey
    · rw [← Finmap.lookup_isSome, ← hsame k (hother k hk)]
      exact Finmap.lookup_isSome.2 (h.mem k hk)
  · rw [h.lookup k]
    by_cases hk : k = key
    · subst hk
      simp [hne, hfirst]
    · simp [hk, hsame k hk, hexp k hk]
  · refine List.countP_congr fun k hk => ?_
    rw [hexp k (hother k hk)]

theorem Sampled.mem_of_mem {items items' : Items} {now : Time} {sample : List Key}
    (h : Sampled items now sample items') {k : Key} (hk : k ∈ items') : k ∈ items := by
  have hsome := Finmap.lookup_isSome.2 hk
  rw [h.lookup k] at hsome
  split_ifs at hsome with hx
  · exact absurd hsome Bool.false_ne_true
  · exact Finmap.lookup_isSome.1 hsome

/-! ## The loop -/

/-- What the loop meets in one iteration: the argument of `rand.Intn`, the key drawn, and the entry
    that the map has for it at the time. -/
structure Visit where
  bound : ℕ
  key : Key
  entry : Entry

/-- `sampleLoop`, with a record of its iterations. -/
def examineLoop (rand : ℕ → ℕ) (now : Time) :
    (n i : ℕ) → List Key → Items → ℕ → Option (List Visit × Items × ℕ)
  | 0, _, _, items, expiredCount => some ([], items, expiredCount)
  | n + 1, i, keys, items, expiredCount => do
    let bound := keys.length - i
    let idx ← intn (rand i) bound
    let keys ← swap keys i (idx + i)
    let key ← keys[i]?
    let entry ← items.lookup key
    let (visits, result) ←
      if entry.isExpired now then
        examineLoop rand now n (i + 1) keys (items.erase key) (expiredCount + 1)
      else examineLoop rand now n (i + 1) keys items expiredCount
    return (⟨bound, key, entry⟩ :: visits, result)

section
variable (rand : ℕ → ℕ) (now : Time)

theorem sampleLoop_eq (n i : ℕ) (keys : List Key) (items : Items) (count : ℕ) :
    sampleLoop rand now n i keys items count =
      (examineLoop rand now n i keys items count).map Prod.snd := by
  induction n generalizing i keys items count with
  | zero => rfl
  | succ n ih =>
    simp only [sampleLoop, examineLoop, Option.bind_eq_bind, Option.map_bind, Function.comp_def]
    refine Option.bind_congr fun idx _ => Option.bind_congr fun keys' _ =>
      Option.bind_congr fun key _ => Option.bind_congr fun entry _ => ?_
    split_ifs with hx
    · rw [ih]
      cases examineLoop rand now n (i + 1) keys' (items.erase key) (count + 1) <;> rfl
    · rw [ih]
      cases examineLoop rand now n (i + 1) keys' items count <;> rfl

/-- One iteration: the key drawn is deleted and counted if its entry is expired. -/
theorem examineLoop_succ (n count : ℕ) {i idx : ℕ} {keys keys' : List Key} {items : Items} {key : Key}
    {entry : Entry} (hidx : intn (rand i) (keys.length - i) = some idx)
    (hswap : swap keys i (idx + i) = some keys') (hkey : keys'[i]? = some key)
    (he : items.lookup key = some entry) :
    ∃ items₁, (∀ k, items₁.lookup k =
        if k = key ∧ expiredAt items now k = true then none else items.lookup k) ∧
      examineLoop rand now (n + 1) i keys items count =
        (examineLoop rand now n (i + 1) keys' items₁
          (count + if expiredAt items now key = true then 1 else 0)).map
            fun r => (⟨keys.length - i, key, entry⟩ :: r.1, r.2) := by
  have hexp : expiredAt items now key = entry.isExpired now := by simp [expiredAt, he]
  by_cases hx : entry.isExpired now = true
  · refine ⟨items.erase key, fun k => ?_, ?_⟩
    · by_cases hk : k = key
      · subst hk
        rw [Finmap.lookup_erase, if_pos ⟨rfl, hexp.trans hx⟩]
      · rw [Finmap.lookup_erase_ne hk, if_neg fun hc => hk hc.1]
    · simp [examineLoop, hidx, hswap, hkey, he, hx, hexp, Option.map_eq_bind]
  · refine ⟨items, fun k => ?_, ?_⟩
    · rw [if_neg]
      rintro ⟨rfl, hc⟩
      exact hx (hexp.symm.trans hc)
    · simp [examineLoop, hidx, hswap, hkey, he, hx, hexp, Option.map_eq_bind]

/-- **The sampling loop.**  As long as the keys from `i` on are distinct keys of the map, it
    never panics; it examines a sample of them without repetition, and deletes and counts the
    expired entries of the sample. -/
theorem examineLoop_spec (n i : ℕ) (keys : List Key) (items : Items) (count : ℕ)
    (hnd : (keys.drop i).Nodup) (hn : n ≤ (keys.drop i).length)
    (hmem : ∀ key ∈ keys.drop i, key ∈ items) :
    ∃ visits items', visits.length = n ∧ Sampled items now (visits.map Visit.key) items' ∧
      (∀ v ∈ visits, v.key ∈ keys.drop i ∧ 0 < v.bound ∧ items.lookup v.key = some v.entry) ∧
      examineLoop rand now n i keys items count =
        some (visits, items', count + (visits.map Visit.key).countP (expiredAt items now)) := by
  induction n generalizing i keys items count with
  | zero =>
    exact ⟨[], items, rfl, .nil items now, fun v hv => absurd hv List.not_mem_nil, rfl⟩
  | succ n ih =>
    rw [List.length_drop] at hn
    have hi : i < keys.length := by omega
    obtain ⟨idx, keys', key, hidx, hswap, hkey, hperm⟩ := draw hi (rand i)
    obtain ⟨hne, hnd'⟩ := List.nodup_cons.1 (hperm.nodup_iff.2 hnd)
    have hn' : n ≤ (keys'.drop (i + 1)).length := by
      have hlen := hperm.length_eq
      rw [List.length_cons, List.length_drop (i := i)] at hlen
      omega
    have hin : ∀ k ∈ key :: keys'.drop (i + 1), k ∈ keys.drop i := fun k hk => hperm.mem_iff.1 hk
    have hkeyin : key ∈ items := hmem key (hin key List.mem_cons_self)
    obtain ⟨entry, he⟩ := Option.isSome_iff_exists.1 (Finmap.lookup_isSome.2 hkeyin)
    obtain ⟨items₁, hfirst, hstep⟩ := examineLoop_succ rand now n count hidx hswap hkey he
    -- the keys still to be drawn are other ones, and have not been deleted
    have hsame : ∀ k ∈ keys'.drop (i + 1), items₁.lookup k = items.lookup k := by
      intro k hk
      rw [hfirst, if_neg]
      rintro ⟨rfl, -⟩
      exact hne hk
    have hmem₁ : ∀ k ∈ keys'.drop (i + 1), k ∈ items₁ := by
      intro k hk
      rw [← Finmap.lookup_isSome, hsame k hk, Finmap.lookup_isSome]
      exact hmem k (hin k (List.mem_cons_of_mem key hk))
    obtain ⟨visits, items', hlen, hs, hvisits, hrun⟩ := ih (i + 1) keys' items₁
      (count + if expiredAt items now key = true then 1 else 0) hnd' hn' hmem₁
    have hnot : key ∉ visits.map Visit.key := by
      intro hk
      obtain ⟨v, hv, rfl⟩ := List.mem_map.1 hk
      exact hne (hvisits v hv).1
    obtain ⟨hs', hcount⟩ := hs.cons hkeyin hnot hfirst
    refine ⟨⟨keys.length - i, key, entry⟩ :: visits, items', congrArg (· + 1) hlen, hs', ?_, ?_⟩
    · intro v hv
      rcases List.mem_cons.1 hv with rfl | hv
      · exact ⟨hin key List.mem_cons_self, Nat.sub_pos_of_lt hi, he⟩
      · obtain ⟨hkeys, hbound, hentry⟩ := hvisits v hv
        exact ⟨hin _ (List.mem_cons_of_mem key hkeys), hbound, (hsame _ hkeys).symm.trans hentry⟩
    · rw [hstep, hrun, hcount, List.map_cons, List.countP_cons, Option.map_some, Nat.add_assoc,
        Nat.add_comm (List.countP _ _)]

end

/-! ## The pass -/

/-- The entries after the shard at an index is replaced. -/
theorem entry_putIndex (s : Store) {index : ℕ} {items : Items}
    (h : s.shards[index]? = some items) (items' : Items) (k : Key) :
    s.entry k = items.lookup k ∧ (s.putIndex index items').entry k = items'.lookup k ∨
      (s.putIndex index items').entry k = s.entry k := by
  obtain ⟨hlt, hitems⟩ := List.getElem?_eq_some_iff.1 h
  have hget : (s.putIndex index items').getShard k =
      if s.shardIndex k = index then items' else s.getShard k := by
    simp only [getShard, putIndex, shardIndex, List.get_eq_getElem, List.getElem_set, eq_comm]
  unfold entry
  rw [hget]
  by_cases hk : s.shardIndex k = index
  · left
    subst hk
    rw [if_pos rfl]
    exact ⟨congrArg _ hitems, rfl⟩
  · right
    rw [if_neg hk]

theorem Placed.putIndex {s : Store} (h : s.Placed) {index : ℕ} {items items' : Items}
    (hitems : s.shards[index]? = some items) (hsub : ∀ k ∈ items', k ∈ items) :
    (s.putIndex index items').Placed := by
  intro i is hi k hk
  show s.shardIndex k = i
  simp only [Store.putIndex, List.getElem?_set] at hi
  split_ifs at hi with hidx hlt
  · obtain rfl := Option.some.inj hi
    exact hidx ▸ h index items hitems k (hsub k hk)
  · exact h i is hi k hk

/-- One pass, with what it examines. -/
theorem sampleAndExpire_examines (s : Store) {index : ℕ} {items : Items}
    (hitems : s.shards[index]? = some items) (pass : Pass) :
    ∃ visits items', visits.length = min items.keys.card samplesPerSweep ∧
      Sampled items pass.now (visits.map Visit.key) items' ∧
      (∀ v ∈ visits, 0 < v.bound ∧ items.lookup v.key = some v.entry) ∧
      examineLoop pass.rand pass.now (min items.keys.card samplesPerSweep) 0
          ((pass.ord.list items).map Sigma.fst) items 0 =
        some (visits, items', (visits.map Visit.key).countP (expiredAt items pass.now)) ∧
      s.sampleAndExpire index pass =
        some (((visits.map Visit.key).countP (expiredAt items pass.now) : ℚ) / visits.length,
          (s.putIndex index items').count fun st =>
            { st with
              expirations := st.expirations +
                ((visits.map Visit.key).countP (expiredAt items pass.now)).toUInt64 }) := by
  have hlen : ((pass.ord.list items).map Sigma.fst).length = items.keys.card := by
    rw [List.length_map, pass.ord.length_list]
  obtain ⟨visits, items', hn, hs, hvisits, hloop⟩ := examineLoop_spec pass.rand pass.now
    (min items.keys.card samplesPerSweep) 0 ((pass.ord.list items).map Sigma.fst) items 0
    (pass.ord.keys_nodup items) (hlen ▸ Nat.min_le_left _ _)
    (fun key hk => (pass.ord.mem_keys items).1 hk)
  rw [Nat.zero_add] at hloop
  refine ⟨visits, items', hn, hs, fun v hv => (hvisits v hv).2, hloop, ?_⟩
  by_cases h0 : items.keys.card = 0
  · rw [h0, Nat.zero_min] at hn hloop
    obtain rfl := List.length_eq_zero_iff.1 hn
    obtain rfl : items = items' := by simpa [examineLoop] using hloop
    have hput : s.putIndex index items = s := by
      obtain ⟨hlt, rfl⟩ := List.getElem?_eq_some_iff.1 hitems
      simp [putIndex]
    simp only [sampleAndExpire, hitems, Option.bind_eq_bind, Option.bind_some, if_pos h0, hput]
    simp [Store.count]
  · have hsamples : (if items.keys.card < samplesPerSweep then items.keys.card
        else samplesPerSweep) = min items.keys.card samplesPerSweep := by
      split_ifs <;> omega
    simp only [sampleAndExpire, hitems, Option.bind_eq_bind, Option.bind_some, if_neg h0, hsamples,
      sampleLoop_eq, hloop, hn]
    rfl

/-- **One pass** of the sweeper never panics: it replaces the shard by what is left after a
    sample of it, and answers the fraction of the sample that was expired. -/
theorem sampleAndExpire_eq (s : Store) {index : ℕ} {items : Items}
    (hitems : s.shards[index]? = some items) (pass : Pass) :
    ∃ sample items', sample.length = min items.keys.card samplesPerSweep ∧
      Sampled items pass.now sample items' ∧
      s.sampleAndExpire index pass =
        some ((sample.countP (expiredAt items pass.now) : ℚ) / sample.length,
          (s.putIndex index items').count fun st =>
            { st with
              expirations :=
                st.expirations + (sample.countP (expiredAt items pass.now)).toUInt64 }) := by
  obtain ⟨visits, items', hn, hs, -, -, hpass⟩ := s.sampleAndExpire_examines hitems pass
  refine ⟨visits.map Visit.key, items', ?_, hs, ?_⟩
  · rw [List.length_map, hn]
  · rw [List.length_map, hpass]

/-- **Sampling is safe.**  Whatever the order of the keys and the random choices, a pass examines
    20 keys, or all of a smaller shard, and no key twice; `rand.Intn` has a positive argument, and
    every key examined is in the map when it is looked up, with the entry it had before the pass.
    Exactly the examined entries that are expired are deleted and counted. -/
theorem sampling_safe (s : Store) (index : ℕ) (items : Items)
    (hitems : s.shards[index]? = some items) (pass : Pass) :
    ∃ (visits : List Visit) (items' : Items) (expired : ℕ),
      examineLoop pass.rand pass.now (min 20 items.keys.card) 0
        ((pass.ord.list items).map Sigma.fst) items 0 = some (visits, items', expired) ∧
      visits.length = min 20 items.keys.card ∧ (visits.map Visit.key).Nodup ∧
      (∀ v ∈ visits, 0 < v.bound ∧ items.lookup v.key = some v.entry) ∧
      (∀ key, items'.lookup key =
        if ∃ v ∈ visits, v.key = key ∧ v.entry.isExpired pass.now = true then none
        else items.lookup key) ∧
      expired = visits.countP (fun v => v.entry.isExpired pass.now) ∧
      s.sampleAndExpire index pass =
        some ((expired : ℚ) / visits.length, (s.putIndex index items').count fun st =>
          { st with expirations := st.expirations + expired.toUInt64 }) := by
  obtain ⟨visits, items', hn, hs, hvisits, hloop, hpass⟩ := s.sampleAndExpire_examines hitems pass
  have hexp : ∀ v ∈ visits, expiredAt items pass.now v.key = v.entry.isExpired pass.now := by
    intro v hv
    simp [expiredAt, (hvisits v hv).2]
  rw [Nat.min_comm] at hn hloop
  refine ⟨visits, items', _, hloop, hn, hs.nodup, hvisits, fun key => ?_, ?_, hpass⟩
  · rw [hs.lookup key]
    refine if_congr ⟨?_, ?_⟩ rfl rfl
    · rintro ⟨hkey, hx⟩
      obtain ⟨v, hv, rfl⟩ := List.mem_map.1 hkey
      exact ⟨v, hv, rfl, (hexp v hv).symm.trans hx⟩
    · rintro ⟨v, hv, rfl, hx⟩
      exact ⟨List.mem_map_of_mem hv, (hexp v hv).trans hx⟩
  · rw [List.countP_map]
    refine List.countP_congr fun v hv => ?_
    rw [Function.comp_apply, hexp v hv]

/-- A store of one shard with 22 entries, five of which have a TTL of 2 ns. -/
def crowded : Store :=
  (List.range 22).foldl (fun s i => s.set 0 [i.toUInt8] [7] (if i < 5 then 2 else 0))
    (newWithShards 1)

/-- The items of its shard. -/
def crowdedItems : Items := crowded.shards[0]?.getD ∅

/-- A pass over this shard examines 20 of the 22 keys. -/
theorem sampling_safe_crowded :
    crowdedItems.keys.card = 22 ∧
    ∃ (visits : List Visit) (items' : Items), visits.length = 20 ∧
      (visits.map Visit.key).Nodup ∧
      (∀ v ∈ visits, 0 < v.bound ∧ crowdedItems.lookup v.key = some v.entry) ∧
      (crowded.sampleAndExpire 0 ⟨default, fun _ => 3, 5⟩).map Prod.fst =
        some ((visits.countP fun v => v.entry.isExpired 5 : ℚ) / 20) ∧
      ∀ key, items'.lookup key =
        if ∃ v ∈ visits, v.key = key ∧ v.entry.isExpired 5 = true then none
        else crowdedItems.lookup key := by
  obtain ⟨visits, items', expired, -, hlen, hnodup, hvisits, hlookup, rfl, hpass⟩ :=
    sampling_safe crowded 0 crowdedItems (by decide +kernel) ⟨default, fun _ => 3, 5⟩
  have hcard : crowdedItems.keys.card = 22 := by decide +kernel
  have hlen : visits.length = 20 := by
    rw [hlen, hcard]
    rfl
  refine ⟨hcard, visits, items', hlen, hnodup, hvisits, ?_, hlookup⟩
  rw [hpass, hlen]
  rfl

end Store

end DistCache
