/-
  `sweepShard` ends.

  A pass that is repeated has found at least a quarter of its sample expired, so it has
  removed an entry: the number of entries of the shard bounds the number of passes.  The
  loop is followed pass by pass (`repeats`); the passes it may take are an unbounded
  sequence, of which it uses a finite part whatever is sampled.
-/
import DistCache.Proof.Stats

namespace DistCache.Store

/-- The store after passes that are all repeated. -/
def repeats (index : ℕ) : List Pass → Store → Option Store
  | [], s => some s
  | pass :: passes, s => do
    let (expired, s) ← s.sampleAndExpire index pass
    if expired < expiredThreshold then none else repeats index passes s

/-- `sweepShard` goes on after the passes that are repeated. -/
theorem sweepShard_of_repeats {index : ℕ} (rest : List Pass) : ∀ {passes : List Pass}
    {s s₁ : Store}, s.repeats index passes = some s₁ →
    s.sweepShard index (passes ++ rest) = s₁.sweepShard index rest
  | [], s, s₁, h => by rw [List.nil_append, Option.some.inj h]
  | pass :: passes, s, s₁, h => by
    obtain ⟨⟨expired, s₂⟩, hpass, h⟩ := Option.bind_eq_some_iff.1 h
    dsimp only at h
    split_ifs at h with hx
    have ih := sweepShard_of_repeats rest h
    simp [sweepShard, hpass, hx, ih]

/-! ## What is removed -/

/-- `after` is `before` without entries that were expired at one of the times. -/
def Purged (times : List Time) (before after : Items) : Prop :=
  ∀ key, after.lookup key = before.lookup key ∨
    after.lookup key = none ∧ ∃ e, before.lookup key = some e ∧ ∃ t ∈ times, e.isExpired t = true

theorem Purged.refl (times : List Time) (items : Items) : Purged times items items :=
  fun _ => Or.inl rfl

theorem Purged.trans {ts us : List Time} {a b c : Items} (h : Purged ts a b) (h' : Purged us b c) :
    Purged (ts ++ us) a c := by
  intro key
  rcases h' key with h' | ⟨hnone, e, he, t, ht, hx⟩
  · rw [h']
    rcases h key with h | ⟨hnone, e, he, t, ht, hx⟩
    · exact Or.inl h
    · exact Or.inr ⟨hnone, e, he, t, List.mem_append_left us ht, hx⟩
  · right
    rcases h key with h | ⟨hnone', -⟩
    · exact ⟨hnone, e, h ▸ he, t, List.mem_append_right ts ht, hx⟩
    · rw [hnone'] at he
      cases he

theorem Purged.mem {ts : List Time} {a b : Items} (h : Purged ts a b) {key : Key} (hk : key ∈ b) :
    key ∈ a := by
  rcases h key with he | ⟨hnone, -⟩
  · rw [← Finmap.lookup_isSome, ← he]
    exact Finmap.lookup_isSome.2 hk
  · exact absurd hk (Finmap.lookup_eq_none.1 hnone)

theorem Purged.card_le {ts : List Time} {a b : Items} (h : Purged ts a b) :
    b.keys.card ≤ a.keys.card :=
  Finset.card_le_card fun _ hk => Finmap.mem_keys.2 (h.mem (Finmap.mem_keys.1 hk))

section
variable {items items' : Items} {now : Time} {sample : List Key}

theorem Sampled.purged (h : Sampled items now sample items') : Purged [now] items items' := by
  intro key
  rw [h.lookup key]
  split_ifs with hx
  · right
    rcases he : items.lookup key with _ | e
    · simp [expiredAt, he] at hx
    · refine ⟨rfl, e, rfl, now, List.mem_singleton_self now, ?_⟩
      simpa [expiredAt, he] using hx.2
  · exact Or.inl rfl

/-- A sample of the whole shard leaves no expired entry. -/
theorem Sampled.complete (h : Sampled items now sample items')
    (hall : items.keys.card ≤ sample.length) {key : Key} {e : Entry}
    (he : items'.lookup key = some e) : e.isExpired now = false := by
  have hcover : sample.toFinset = items.keys := by
    refine Finset.eq_of_subset_of_card_le (fun k hk => ?_) ?_
    · exact Finmap.mem_keys.2 (h.mem k (List.mem_toFinset.1 hk))
    · rw [List.toFinset_card_of_nodup h.nodup]
      exact hall
  have hlookup := h.lookup key
  have hmem : key ∈ items := h.mem_of_mem (Finmap.lookup_isSome.1 (by rw [he]; rfl))
  have hsample : key ∈ sample := by
    rw [← List.mem_toFinset, hcover]
    exact Finmap.mem_keys.2 hmem
  by_cases hx : expiredAt items now key = true
  · rw [if_pos ⟨hsample, hx⟩, he] at hlookup
    cases hlookup
  · rw [if_neg fun hc => hx hc.2, he] at hlookup
    simpa [expiredAt, ← hlookup] using hx

/-- The fraction answered, compared with the threshold. -/
theorem ratio_lt_iff {k n : ℕ} (hn : 0 < n) : (k : ℚ) / n < expiredThreshold ↔ 4 * k < n := by
  have hn' : (0 : ℚ) < n := by exact_mod_cast hn
  rw [expiredThreshold, div_lt_div_iff₀ hn' (by norm_num), one_mul, mul_comm]
  exact_mod_cast Iff.rfl

end

/-! ## The end of the loop -/

/-- The other shards are those of `s`. -/
def SameElsewhere (index : ℕ) (s s' : Store) : Prop := ∀ i ≠ index, s'.shards[i]? = s.shards[i]?

theorem shards_swept (s : Store) {index : ℕ} {items : Items} (h : s.shards[index]? = some items)
    (items' : Items) (n : ℕ) :
    (s.swept index items' n).shards[index]? = some items' ∧
      SameElsewhere index s (s.swept index items' n) := by
  obtain ⟨hlt, -⟩ := List.getElem?_eq_some_iff.1 h
  refine ⟨List.getElem?_set_self hlt, fun i hi => ?_⟩
  exact List.getElem?_set_ne hi.symm

/-- The last pass of `sweepShard`, number `n`: the store before and after it, with the
    entries of the shard. -/
structure LastPass (index : ℕ) (pass : ℕ → Pass) (s : Store) (items : Items) (n : ℕ)
    (before : Store) (items₁ : Items) (after : Store) (items' : Items) : Prop where
  repeated : s.repeats index ((List.range n).map pass) = some before
  before_items : before.shards[index]? = some items₁
  purged : Purged ((List.range n).map fun i => (pass i).now) items items₁
  elsewhere : SameElsewhere index s after
  after_items : after.shards[index]? = some items'
  /-- The last pass samples the shard, and ends the loop. -/
  ends : ∃ sample expired, sample.length = min items₁.keys.card samplesPerSweep ∧
    Sampled items₁ (pass n).now sample items' ∧
    before.sampleAndExpire index (pass n) = some (expired, after) ∧
    expired < expiredThreshold ∧
    (items₁.keys.card = 0 ∨ 4 * sample.countP (expiredAt items₁ (pass n).now) < sample.length)

/-- A pass before the others. -/
theorem LastPass.cons {index n : ℕ} {pass : ℕ → Pass} {s s₀ before after : Store}
    {items items₀ items₁ items' : Items} {expired : ℚ}
    (h : LastPass index (fun i => pass (i + 1)) s₀ items₀ n before items₁ after items')
    (hpass : s.sampleAndExpire index (pass 0) = some (expired, s₀))
    (hx : ¬ expired < expiredThreshold) (hp : Purged [(pass 0).now] items items₀)
    (he : SameElsewhere index s s₀) :
    LastPass index pass s items (n + 1) before items₁ after items' where
  repeated := by
    rw [List.range_succ_eq_map, List.map_cons, List.map_map, repeats, hpass]
    simp only [Option.bind_eq_bind, Option.bind_some, if_neg hx]
    exact h.repeated
  before_items := h.before_items
  purged := by
    rw [List.range_succ_eq_map, List.map_cons, List.map_map]
    exact hp.trans h.purged
  elsewhere i hi := (h.elsewhere i hi).trans (he i hi)
  after_items := h.after_items
  ends := h.ends

/-- **The loop ends** after at most as many repetitions as the shard has entries. -/
theorem exists_lastPass (index : ℕ) : ∀ (k : ℕ) (pass : ℕ → Pass) (s : Store) (items : Items),
    s.shards[index]? = some items → items.keys.card = k →
    ∃ n ≤ k, ∃ before items₁ after items',
      LastPass index pass s items n before items₁ after items' := by
  intro k
  induction k using Nat.strong_induction_on with
  | _ k ih =>
    intro pass s items hitems hk
    obtain ⟨sample, items₀, hlen, hs, hpass⟩ := s.sampleAndExpire_eq hitems (pass 0)
    obtain ⟨hitems₀, helse⟩ := s.shards_swept hitems items₀
      (sample.countP (expiredAt items (pass 0).now))
    by_cases hx : ((sample.countP (expiredAt items (pass 0).now) : ℚ) / sample.length) <
        expiredThreshold
    · refine ⟨0, Nat.zero_le k, s, items, _, items₀, rfl, hitems, .refl _ items, helse, hitems₀,
        sample, _, hlen, hs, hpass, hx, ?_⟩
      rcases Nat.eq_zero_or_pos items.keys.card with h0 | hpos
      · exact Or.inl h0
      · refine Or.inr ((ratio_lt_iff ?_).1 hx)
        rw [hlen]
        exact lt_min hpos (by decide)
    · -- a repeated pass has removed an entry
      have hpos : 0 < sample.countP (expiredAt items (pass 0).now) := by
        refine Nat.pos_of_ne_zero fun h0 => hx ?_
        rw [h0, Nat.cast_zero, zero_div]
        norm_num [expiredThreshold]
      have hcard := hs.card
      obtain ⟨n, hn, before, items₁, after, items', h⟩ :=
        ih items₀.keys.card (by omega) (fun i => pass (i + 1)) _ items₀ hitems₀ rfl
      refine ⟨n + 1, by omega, before, items₁, after, items', ?_⟩
      exact h.cons hpass hx hs.purged helse

/-- **Sweeping a shard ends and is exact.**  Whatever is sampled, from some number of passes on
    `sweepShard` returns without a stop signal: it takes pass `n` last.  Only entries that were
    expired at a pass are removed; the last pass finds the shard empty or less than a quarter of
    its sample expired; and in a shard of at most 20 entries none is left that is expired at the
    last pass. -/
theorem sweepShard_ends (s : Store) (index : ℕ) (items : Items)
    (hitems : s.shards[index]? = some items) (pass : ℕ → Pass) :
    ∃ n ≤ items.keys.card, ∃ before items₁ after items',
      s.repeats index ((List.range n).map pass) = some before ∧
      before.shards[index]? = some items₁ ∧ after.shards[index]? = some items' ∧
      (∀ m, n < m → s.sweepShard index ((List.range m).map pass) = some after) ∧
      (∀ i ≠ index, after.shards[i]? = s.shards[i]?) ∧
      Purged ((List.range (n + 1)).map fun i => (pass i).now) items items' ∧
      (∃ sample, sample.length = min items₁.keys.card samplesPerSweep ∧
        Sampled items₁ (pass n).now sample items' ∧
        (items₁ = ∅ ∨ 4 * sample.countP (expiredAt items₁ (pass n).now) < sample.length)) ∧
      (items.keys.card ≤ 20 →
        ∀ key e, items'.lookup key = some e → e.isExpired (pass n).now = false) := by
  obtain ⟨n, hn, before, items₁, after, items', h⟩ :=
    exists_lastPass index items.keys.card pass s items hitems rfl
  obtain ⟨sample, expired, hlen, hs, hlast, hx, hcase⟩ := h.ends
  refine ⟨n, hn, before, items₁, after, items', h.repeated, h.before_items, h.after_items,
    fun m hm => ?_, h.elsewhere, ?_, ⟨sample, hlen, hs, ?_⟩, fun hsmall key e he => ?_⟩
  · -- the passes after the last one are not taken
    obtain ⟨d, rfl⟩ := Nat.exists_eq_add_of_lt hm
    have hsplit : (List.range (n + d + 1)).map pass =
        (List.range n).map pass ++ pass n :: (List.range d).map fun i => pass (n + 1 + i) := by
      rw [show n + d + 1 = n + (d + 1) by omega, List.range_add, List.map_append,
        List.range_succ_eq_map]
      simp only [List.map_cons, List.map_map, Nat.add_zero, List.append_cancel_left_eq,
        List.cons.injEq, true_and]
      refine List.map_congr_left fun i _ => ?_
      show pass (n + (i + 1)) = pass (n + 1 + i)
      rw [Nat.add_right_comm, ← Nat.add_assoc]
    rw [hsplit, sweepShard_of_repeats _ h.repeated]
    simp [sweepShard, hlast, hx]
  · rw [List.range_succ, List.map_append]
    exact h.purged.trans hs.purged
  · refine hcase.imp_left fun h0 => Finmap.ext_lookup fun key => ?_
    rw [Finmap.lookup_empty, Finmap.lookup_eq_none, ← Finmap.mem_keys, Finset.card_eq_zero.1 h0]
    exact Finset.notMem_empty key
  · refine hs.complete ?_ he
    have hle := h.purged.card_le
    rw [hlen, min_eq_left]
    exact hle.trans hsmall

/-- A store of two shards, with three keys in the first one and two in the second; one key of each
    has no TTL. -/
def sweepable : Store :=
  [([1], 2), ([3], 2), ([5], 0), ([2], 2), ([4], 0)].foldl
    (fun s (x : Key × Duration) => s.set 0 x.1 [7] x.2) (newWithShards 2)

/-- The items of its first shard. -/
def sweepableItems : Items := sweepable.shards[0]?.getD ∅

/-- A sweep of the first shard ends after at most four passes.  What is left of it is not expired,
    the key without TTL is there, and the second shard is as it was. -/
theorem sweepShard_ends_sweepable :
    ∃ n ≤ 3, ∃ after items', after.shards[0]? = some items' ∧
      (∀ m, n < m → sweepable.sweepShard 0
        ((List.range m).map fun _ => ⟨default, fun _ => 0, 5⟩) = some after) ∧
      (∀ key e, items'.lookup key = some e → e.isExpired 5 = false) ∧
      after.shards[1]? = sweepable.shards[1]? := by
  obtain ⟨n, hn, -, -, after, items', -, -, hafter, hrun, helse, -, -, hnone⟩ :=
    sweepShard_ends sweepable 0 sweepableItems (by decide +kernel)
      fun _ => ⟨default, fun _ => 0, 5⟩
  have hcard : sweepableItems.keys.card = 3 := by decide +kernel
  rw [hcard] at hn hnone
  exact ⟨n, hn, after, items', hafter, hrun, hnone (by decide), helse 1 (by decide)⟩

end DistCache.Store
