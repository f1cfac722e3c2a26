/-
  Reads of the shard copies of a split key.

  The copies of a key are always written together (`Split`).  So a read of a copy finds
  what a read of the key finds if and only if their live entries are equal (`Coherent`).
  `Set` writes both; a `Delete`, an `Expire` or a replicated write changes the key only,
  and splitting a key with a TTL makes copies without one.

  The copy a client reads is one of those that `WriteToShards` writes (`write_through`).
-/
import DistCache.Proof.Split
import DistCache.Proof.WireTtl

namespace DistCache

open Lib

/-! ## Entries that read alike -/

theorem read_some (t : Time) (e : Entry) :
    (alive t (some e)).map Entry.value = if e.isExpired t then none else some e.value := by
  rw [alive, Option.filter_some]
  cases e.isExpired t <;> rfl

theorem not_isExpired_of_alive {t : Time} {o : Option Entry} {e : Entry} (h : alive t o = some e) :
    e.isExpired t = false :=
  Bool.not_eq_true' _ ▸ (Option.filter_eq_some_iff.1 h).2

/-- Two entries that are not expired at `t` and expire alike have the same expiry. -/
theorem expiresAt_eq {t : Time} {e e' : Entry} (h : e.isExpired t = false)
    (h' : e'.isExpired t = false) (hexp : ∀ u ≥ t, e.isExpired u = e'.isExpired u) :
    e.expiresAt = e'.expiresAt := by
  obtain ⟨v, _ | x⟩ := e
  · obtain ⟨v', _ | x'⟩ := e'
    · rfl
    · -- the other one is gone some time
      have hu := hexp (max t (x' + 1)) (le_max_left ..)
      simp [Entry.isExpired] at hu
  · obtain ⟨v', _ | x'⟩ := e'
    · have hu := hexp (max t (x + 1)) (le_max_left ..)
      simp [Entry.isExpired] at hu
    · simp only [Entry.isExpired, decide_eq_false_iff_not, not_lt] at h h'
      simp only [Entry.isExpired, decide_eq_decide] at hexp
      have hle : x' ≤ x := not_lt.1 fun hlt => lt_irrefl x' ((hexp x' h').1 hlt)
      have hge : x ≤ x' := not_lt.1 fun hlt => lt_irrefl x ((hexp x h).2 hlt)
      exact congrArg some (le_antisymm hge hle)

/-- Two live entries that read alike from now on are equal. -/
theorem entry_eq_of_reads {t : Time} {e e' : Entry} (h : e.isExpired t = false)
    (h' : e'.isExpired t = false)
    (hreads : ∀ u ≥ t, (alive u (some e)).map Entry.value = (alive u (some e')).map Entry.value) :
    e = e' := by
  have hvalue := hreads t le_rfl
  rw [read_some, read_some, h, h'] at hvalue
  have hexpires : e.expiresAt = e'.expiresAt := by
    refine expiresAt_eq h h' fun u hu => ?_
    have hread := hreads u hu
    rw [read_some, read_some] at hread
    cases hx : e.isExpired u <;> cases hx' : e'.isExpired u <;> simp [hx, hx'] at hread ⊢
  obtain ⟨value, expiresAt⟩ := e
  obtain ⟨value', expiresAt'⟩ := e'
  obtain rfl : value = value' := Option.some.inj hvalue
  obtain rfl : expiresAt = expiresAt' := hexpires
  rfl

/-- **Entries read alike from `t` on exactly if their live entries at `t` are equal.** -/
theorem alive_eq_iff {t : Time} {o o' : Option Entry} :
    alive t o = alive t o' ↔
      ∀ u ≥ t, (alive u o).map Entry.value = (alive u o').map Entry.value := by
  constructor
  · intro h u hu
    rw [← alive_alive hu o, h, alive_alive hu o']
  · intro h
    have hnow := h t le_rfl
    rcases ho : alive t o with _ | e
    · rw [ho] at hnow
      exact (Option.map_eq_none_iff.1 hnow.symm).symm
    · rcases ho' : alive t o' with _ | e'
      · rw [ho, ho'] at hnow
        cases hnow
      · refine congrArg some (entry_eq_of_reads (not_isExpired_of_alive ho)
          (not_isExpired_of_alive ho') fun u hu => ?_)
        rw [← ho, ← ho', alive_alive hu, alive_alive hu]
        exact h u hu

/-! ## Transparency -/

namespace Service

open CacheServer

/-- From now on, a read of a key through its copies finds what a read of the key finds. -/
def Transparent (s : Service) : Prop :=
  ∀ mt, s.server.hotKeyMitigator = some mt → ∀ t ≥ s.clock, ∀ k clientID,
    ∃ k', mt.getShardedKey k clientID = some k' ∧
      (s.server.store.get t k').1 = (s.server.store.get t k).1

/-- The times of the calls do not decrease, and no call is about a copy. -/
def Enabled (s : Service) (a : Time × ServerCall) : Prop := s.clock ≤ a.1 ∧ ¬ IsShardKey a.2.key

/-- A call other than `Set` does not change the live entry of a split key, and a key is split
    only while it has no TTL. -/
def Harmless (s : Service) (a : Time × ServerCall) : Prop :=
  ∀ mt, s.server.hotKeyMitigator = some mt →
    (a.2.key ∈ mt.mitigatedKeys → a.2.IsSet ∨
      alive a.1 ((s.step a).server.store.entry a.2.key) =
        alive a.1 (s.server.store.entry a.2.key)) ∧
    ∀ e, s.server.splits a.1 mt a.2 = some e →
      s.server.store.entry a.2.key = some e ∧ mt.shardCount.toUInt32 ≠ 0

/-- The keys filed by the mitigator are split client keys, and the copies of a key have the
    same entry. -/
structure Split (mt : Mitigator) (s : Service) : Prop where
  mitigator : s.server.hotKeyMitigator = some mt
  pos : 0 < mt.shardCount
  keySplit : ∀ k ∈ mt.mitigatedKeys, mt.mitigatedKeys.lookup k = some .keySplit
  client : ∀ k ∈ mt.mitigatedKeys, ¬ IsShardKey k
  copies : ∀ k ∈ mt.mitigatedKeys, ∀ i < mt.shardCount,
    s.server.store.entry (shardKeyName k i) = s.server.store.entry (shardKeyName k 0)

/-- A split key and its copies have the same live entry. -/
def Coherent (mt : Mitigator) (s : Service) : Prop :=
  ∀ k ∈ mt.mitigatedKeys, mt.shardCount.toUInt32 ≠ 0 ∧
    alive s.clock (s.server.store.entry k) = alive s.clock (s.server.store.entry (shardKeyName k 0))

section
variable {mt : Mitigator} {s : Service}

theorem shard_lt {n : ℕ} (hn : n.toUInt32 ≠ 0) (h : UInt32) : (h % n.toUInt32).toNat < n := by
  have hpos : 0 < n.toUInt32.toNat :=
    Nat.pos_of_ne_zero fun h0 => hn (UInt32.toNat_inj.1 (h0.trans UInt32.toNat_zero.symm))
  have hle : n.toUInt32.toNat ≤ n := by
    rw [Nat.toUInt32, UInt32.toNat_ofNat']
    exact Nat.mod_le _ _
  rw [UInt32.toNat_mod]
  exact lt_of_lt_of_le (Nat.mod_lt _ hpos) hle

theorem Split.transparent_iff (h : Split mt s) : s.Transparent ↔ Coherent mt s := by
  constructor
  · intro htr k hk
    have hread := htr mt h.mitigator
    simp only [Mitigator.getShardedKey] at hread
    have hcount : mt.shardCount.toUInt32 ≠ 0 := by
      intro h0
      obtain ⟨k', hk', -⟩ := hread s.clock le_rfl k []
      rw [if_pos (h.keySplit k hk), if_pos h0] at hk'
      cases hk'
    refine ⟨hcount, alive_eq_iff.2 fun u hu => ?_⟩
    obtain ⟨k', hk', hget⟩ := hread u hu k []
    rw [if_pos (h.keySplit k hk), if_neg hcount] at hk'
    rw [← Option.some.inj hk', Store.get_fst_alive, Store.get_fst_alive,
      h.copies k hk _ (shard_lt hcount _)] at hget
    exact hget.symm
  · intro hco mt' hmt' t ht k clientID
    obtain rfl : mt = mt' := Option.some.inj (h.mitigator.symm.trans hmt')
    unfold Mitigator.getShardedKey
    by_cases hs : mt.mitigatedKeys.lookup k = some .keySplit
    · have hk : k ∈ mt.mitigatedKeys := Finmap.lookup_isSome.1 (by rw [hs]; rfl)
      obtain ⟨hcount, halive⟩ := hco k hk
      rw [if_pos hs, if_neg hcount]
      refine ⟨_, rfl, ?_⟩
      rw [Store.get_fst_alive, Store.get_fst_alive, h.copies k hk _ (shard_lt hcount _)]
      exact (alive_eq_iff.1 halive t ht).symm
    · rw [if_neg hs]
      exact ⟨k, rfl, rfl⟩

/-! ## One call -/

theorem Split.step (h : Split mt s) {a : Time × ServerCall} (ha : s.Enabled a) :
    ∃ mt', Split mt' (s.step a) ∧ Files mt mt' a.2.key (s.server.splits a.1 mt a.2) := by
  have hw := @call_wrote s.server a.1 mt h.mitigator a.2
  obtain ⟨mt', hmt', hfiles⟩ := hw.files
  refine ⟨mt', ⟨hmt', hfiles.shardCount ▸ h.pos, fun k hk => ?_, fun k hk => ?_, fun k hk i hi => ?_⟩,
    hfiles⟩
  · rw [hfiles.lookup_eq]
    split_ifs with hkey
    · rfl
    · exact h.keySplit k ((hfiles.mem_iff.1 hk).resolve_left hkey)
  · rcases hfiles.mem_iff.1 hk with ⟨-, rfl⟩ | hk
    · exact ha.2
    · exact h.client k hk
  · rw [hfiles.shardCount] at hi
    show ((s.server.call a.1 a.2).store.entry _) = (s.server.call a.1 a.2).store.entry _
    by_cases hkey : k = a.2.key
    · subst hkey
      rw [hw.entry_copy ha.2 hi, hw.entry_copy ha.2 h.pos]
      rcases hsplit : s.server.splits a.1 mt a.2 with _ | e
      · -- the key was split before
        rw [hsplit] at hfiles
        have hk' := (hfiles.mem_iff.1 hk).resolve_left fun hs => nomatch hs.1
        rw [h.copies _ hk' i hi]
      · rw [copied, hsplit]
        rfl
    · rw [hw.entry_copy_of_ne ha.2 hkey, hw.entry_copy_of_ne ha.2 hkey]
      exact h.copies k ((hfiles.mem_iff.1 hk).resolve_left fun hs => hkey hs.2) i hi

/-- The copies of the other keys stay coherent. -/
theorem Split.coherent_of_ne (h : Split mt s) (hco : Coherent mt s) {a : Time × ServerCall}
    (ha : s.Enabled a) {k : Key} (hk : k ∈ mt.mitigatedKeys) (hkey : k ≠ a.2.key) :
    alive a.1 ((s.step a).server.store.entry k) =
      alive a.1 ((s.step a).server.store.entry (shardKeyName k 0)) := by
  have hw := @call_wrote s.server a.1 mt h.mitigator a.2
  show alive a.1 ((s.server.call a.1 a.2).store.entry k) =
    alive a.1 ((s.server.call a.1 a.2).store.entry (shardKeyName k 0))
  rw [hw.entry_client hkey (h.client k hk), hw.entry_copy_of_ne ha.2 hkey,
    ← alive_alive ha.1, (hco k hk).2, alive_alive ha.1]

/-- **When a call keeps the copies of its key coherent.** -/
theorem Split.coherent_key_iff (h : Split mt s) (hco : Coherent mt s) {a : Time × ServerCall}
    (ha : s.Enabled a) (hk : a.2.key ∈ mt.mitigatedKeys) :
    alive a.1 ((s.step a).server.store.entry a.2.key) =
        alive a.1 ((s.step a).server.store.entry (shardKeyName a.2.key 0)) ↔
      a.2.IsSet ∨ alive a.1 ((s.step a).server.store.entry a.2.key) =
        alive a.1 (s.server.store.entry a.2.key) := by
  have hw := @call_wrote s.server a.1 mt h.mitigator a.2
  have hnosplit : s.server.splits a.1 mt a.2 = none :=
    Option.eq_none_iff_forall_ne_some.2 fun e he => (splits_eq_some he).1 hk
  show alive a.1 ((s.server.call a.1 a.2).store.entry a.2.key) =
    alive a.1 ((s.server.call a.1 a.2).store.entry (shardKeyName a.2.key 0)) ↔
    a.2.IsSet ∨ alive a.1 ((s.server.call a.1 a.2).store.entry a.2.key) = _
  rw [hw.entry_copy ha.2 h.pos, copied, hnosplit]
  rcases hthrough : s.server.writesThrough a.1 mt a.2 with _ | e
  · -- the copies keep the entry that the key had
    have hcopy : alive a.1 (s.server.store.entry (shardKeyName a.2.key 0)) =
        alive a.1 (s.server.store.entry a.2.key) := by
      rw [← alive_alive ha.1, ← (hco _ hk).2, alive_alive ha.1]
    show _ = alive a.1 (s.server.store.entry (shardKeyName a.2.key 0)) ↔ _
    rw [hcopy]
    constructor
    · intro he
      exact Or.inr he
    · rintro (hset | he)
      · rw [call_of_not_through hset (h.keySplit _ hk) hthrough]
      · exact he
  · exact iff_of_true (by rw [hw.through e hthrough]; rfl) (Or.inl (isSet_of_through hthrough))

/-- **When a call that splits its key makes coherent copies.** -/
theorem Split.coherent_split_iff (h : Split mt s) {a : Time × ServerCall} (ha : s.Enabled a)
    {e : Entry} (he : s.server.splits a.1 mt a.2 = some e) :
    alive a.1 ((s.step a).server.store.entry a.2.key) =
        alive a.1 ((s.step a).server.store.entry (shardKeyName a.2.key 0)) ↔
      s.server.store.entry a.2.key = some e := by
  have hw := @call_wrote s.server a.1 mt h.mitigator a.2
  have hexp := (splits_eq_some he).2
  have hpersistent : alive a.1 (some e) = some e := by
    rw [alive, Option.filter_some]
    simp [Entry.isExpired, hexp]
  show alive a.1 ((s.server.call a.1 a.2).store.entry a.2.key) =
    alive a.1 ((s.server.call a.1 a.2).store.entry (shardKeyName a.2.key 0)) ↔ _
  have hlive := hw.split (by rw [he]; exact Option.some_ne_none e)
  rw [hw.entry_copy ha.2 h.pos, hlive, copied, he]
  show _ = alive a.1 (some e) ↔ _
  rw [hpersistent]
  constructor
  · intro halive
    exact (Option.filter_eq_some_iff.1 halive).1
  · intro hentry
    rw [hentry, hpersistent]

/-- **When a call keeps all copies coherent.** -/
theorem Split.coherent_step_iff (h : Split mt s) (hco : Coherent mt s) {a : Time × ServerCall}
    (ha : s.Enabled a) {mt' : Mitigator}
    (hfiles : Files mt mt' a.2.key (s.server.splits a.1 mt a.2)) :
    Coherent mt' (s.step a) ↔ s.Harmless a := by
  constructor
  · intro hco' mt₁ hmt₁
    obtain rfl : mt = mt₁ := Option.some.inj (h.mitigator.symm.trans hmt₁)
    refine ⟨fun hk => ?_, fun e he => ?_⟩
    · exact (h.coherent_key_iff hco ha hk).1 (hco' _ (hfiles.mem_iff.2 (Or.inr hk))).2
    · obtain ⟨hcount, halive⟩ := hco' a.2.key (hfiles.mem_iff.2 (Or.inl ⟨by rw [he]; rfl, rfl⟩))
      exact ⟨(h.coherent_split_iff ha he).1 halive, hfiles.shardCount ▸ hcount⟩
  · intro hharm k hk
    obtain ⟨hown, hsplit⟩ := hharm mt h.mitigator
    rw [hfiles.shardCount]
    rcases hfiles.mem_iff.1 hk with ⟨hs, rfl⟩ | hk
    · obtain ⟨e, he⟩ := Option.isSome_iff_exists.1 hs
      obtain ⟨hentry, hcount⟩ := hsplit e he
      exact ⟨hcount, (h.coherent_split_iff ha he).2 hentry⟩
    · refine ⟨(hco k hk).1, ?_⟩
      by_cases hkey : k = a.2.key
      · subst hkey
        exact (h.coherent_key_iff hco ha hk).2 (hown hk)
      · exact h.coherent_of_ne hco ha hk hkey

end

/-! ## Runs -/

theorem start_split {cs : CacheServer} {detector : Detector} {shardCount : ℤ}
    (hmt : cs.hotKeyMitigator = some (.new detector shardCount)) (t : Time) :
    Split (.new detector shardCount) ⟨cs, t⟩ := by
  have hnone : ∀ k, k ∉ (Mitigator.new detector shardCount).mitigatedKeys :=
    fun k => Finmap.notMem_empty
  refine ⟨hmt, ?_, fun k hk => absurd hk (hnone k), fun k hk => absurd hk (hnone k),
    fun k hk => absurd hk (hnone k)⟩
  simp only [Mitigator.new]
  split_ifs <;> omega

/-- **When split reads are transparent.**  On every server with a new mitigator, at every point
    of a run, a read through the copies finds what a read of the key finds, if and only if no
    call but `Set` changes the live entry of a key that is split, and no key is split while it
    has a TTL. -/
theorem split_reads_transparent_iff (cs : CacheServer) (detector : Detector) (shardCount : ℤ)
    (hmt : cs.hotKeyMitigator = some (.new detector shardCount)) (t : Time)
    (calls : List (Time × ServerCall)) (hcalls : Along step Enabled ⟨cs, t⟩ calls) :
    (∀ pre, pre <+: calls → (run step ⟨cs, t⟩ pre).Transparent) ↔
      Along step Harmless ⟨cs, t⟩ calls := by
  have hstart := start_split hmt t
  refine hcalls.good_iff (J := fun s => ∃ mt, Split mt s) ?_ ?_ ⟨_, hstart⟩ ?_
  · rintro s a ⟨mt, h⟩ ha
    obtain ⟨mt', h', -⟩ := h.step ha
    exact ⟨mt', h'⟩
  · rintro s a ⟨mt, h⟩ ha htr
    obtain ⟨mt', h', hfiles⟩ := h.step ha
    rw [h'.transparent_iff]
    exact h.coherent_step_iff (h.transparent_iff.1 htr) ha hfiles
  · exact hstart.transparent_iff.2 fun k hk => absurd hk Finmap.notMem_empty

theorem harmless_set (s : Service) (t : Time) (req : SetRequest) :
    s.Harmless (t, .request (.set req)) :=
  fun _ _ => ⟨fun _ => Or.inl trivial, fun _ he => nomatch he⟩

/-- A key is written, split and written again. -/
theorem split_reads_transparent_written :
    (run step ⟨eager, 0⟩ [(0, .request (.set ⟨[107], [1], 0⟩)), (1, .request (.get ⟨[107]⟩)),
      (2, .request (.set ⟨[107], [2], 1⟩))]).Transparent := by
  have hkey : ¬ IsShardKey [107] := not_isShardKey_of_length (by decide)
  have hmt : (eager.call 0 (.request (.set ⟨[107], [1], 0⟩))).hotKeyMitigator =
      some (.new (.new 1) 2) := rfl
  have hget : Harmless ⟨eager.call 0 (.request (.set ⟨[107], [1], 0⟩)), 0⟩
      (1, .request (.get ⟨[107]⟩)) := by
    intro mt hmt'
    obtain rfl := Option.some.inj (hmt.symm.trans hmt')
    refine ⟨fun hk => absurd hk (by decide +kernel), fun e he => ?_⟩
    have hsplits : (eager.call 0 (.request (.set ⟨[107], [1], 0⟩))).splits 1 (.new (.new 1) 2)
        (.request (.get ⟨[107]⟩)) = some ⟨[1], none⟩ := by decide +kernel
    obtain rfl := Option.some.inj (hsplits.symm.trans he)
    exact ⟨by decide +kernel, by decide +kernel⟩
  have hiff := split_reads_transparent_iff eager (.new 1) 2 rfl 0
    [(0, .request (.set ⟨[107], [1], 0⟩)), (1, .request (.get ⟨[107]⟩)),
      (2, .request (.set ⟨[107], [2], 1⟩))]
    ⟨⟨by decide, hkey⟩, ⟨by decide, hkey⟩, ⟨by decide, hkey⟩, trivial⟩
  exact hiff.2 ⟨harmless_set _ _ _, hget, harmless_set _ _ _, trivial⟩ _ (List.prefix_refl _)

/-- **A deleted key is still found in its copies.** -/
theorem split_reads_after_delete :
    let calls : List (Time × ServerCall) := [(0, .request (.set ⟨[107], [1], 0⟩)),
      (1, .request (.get ⟨[107]⟩)), (2, .request (.delete ⟨[107]⟩))]
    let s := run step ⟨eager, 0⟩ calls
    Along step Enabled ⟨eager, 0⟩ calls ∧ ¬ s.Transparent ∧
      (s.server.store.get 2 [107]).1 = none ∧
      (s.server.hotKeyMitigator.bind fun mt => mt.getShardedKey [107] []) =
        some (shardKeyName [107] 1) ∧
      (s.server.store.get 2 (shardKeyName [107] 1)).1 = some [1] := by
  intro calls s
  have hkey : ¬ IsShardKey [107] := not_isShardKey_of_length (by decide)
  have heval : (s.server.store.get 2 [107]).1 = none ∧
      (s.server.hotKeyMitigator.bind fun mt => mt.getShardedKey [107] []) =
        some (shardKeyName [107] 1) ∧
      (s.server.store.get 2 (shardKeyName [107] 1)).1 = some [1] := by decide +kernel
  obtain ⟨hgone, hsharded, hcopy⟩ := heval
  refine ⟨⟨⟨by decide, hkey⟩, ⟨by decide, hkey⟩, ⟨by decide, hkey⟩, trivial⟩, fun htr => ?_,
    hgone, hsharded, hcopy⟩
  obtain ⟨mt, hmt, hk⟩ := Option.bind_eq_some_iff.1 hsharded
  obtain ⟨k', hk', hget⟩ := htr mt hmt 2 (by decide) [107] []
  obtain rfl := Option.some.inj (hk.symm.trans hk')
  rw [hgone, hcopy] at hget
  cases hget

end Service

/-! ## Write-through -/

namespace Mitigator

variable (mt : Mitigator)

/-- The copy a client reads is one of the copies, whatever the hash of the client. -/
theorem getShardedKey_copies (hcount : mt.shardCount.toUInt32 ≠ 0) (key : Key)
    (clientID : GoString) :
    ∃ copy, mt.getShardedKey key clientID = some copy ∧
      (copy = key ∨ mt.mitigatedKeys.lookup key = some .keySplit ∧ mt.Copies key copy) := by
  unfold getShardedKey
  by_cases hs : mt.mitigatedKeys.lookup key = some .keySplit
  · rw [if_pos hs, if_neg hcount]
    exact ⟨_, rfl, Or.inr ⟨hs, _, Service.shard_lt hcount _, rfl⟩⟩
  · rw [if_neg hs]
    exact ⟨key, rfl, Or.inl rfl⟩

/-- **Writing through reaches every reader.**  With any number of shards below `2^32`, right
    after `WriteToShards` the key and the copy that a client reads have the value, with an
    expiry exactly if the TTL is positive, and no other entry has changed. -/
theorem write_through (shardCount : ℤ)
    (hmt : mt.shardCount = (Mitigator.new mt.detector shardCount).shardCount)
    (hlt : mt.shardCount < 2 ^ 32) (s : Store) (now : Time) (key : Key) (value : Value)
    (ttl : Duration) (clientID : GoString) :
    let s' := mt.writeToShards s now key value ttl
    ∃ copy, mt.getShardedKey key clientID = some copy ∧
      (s'.get now key).1 = some value ∧ (s'.get now copy).1 = some value ∧
      (∃ e, s'.entry key = some e ∧ s'.entry copy = some e ∧ (e.expiresAt = none ↔ ttl ≤ 0)) ∧
      ∀ k, k ≠ key → (∀ i < mt.shardCount, k ≠ shardKeyName key i) → s'.entry k = s.entry k := by
  intro s'
  have hpos : 0 < mt.shardCount := by
    rw [hmt]
    simp only [Mitigator.new]
    split_ifs <;> omega
  have hcount : mt.shardCount.toUInt32 ≠ 0 := by
    intro h0
    have h0' := congrArg UInt32.toNat h0
    rw [Nat.toUInt32, UInt32.toNat_ofNat', Nat.mod_eq_of_lt hlt, UInt32.toNat_zero] at h0'
    omega
  let e : Entry := ⟨value, Store.expiryOf now ttl⟩
  have hself : s'.entry key = some e := by
    rw [mt.entry_writeToShards s now (spares_self key), if_pos rfl]
  obtain ⟨copy, hcopy, hcase⟩ := mt.getShardedKey_copies hcount key clientID
  have hother : s'.entry copy = some e := by
    rcases hcase with rfl | ⟨hs, hc⟩
    · exact hself
    · rw [mt.entry_writeToShards_of_ne s now hc.ne, if_pos ⟨hs, hc⟩]
  have hread : ∀ k, s'.entry k = some e → (s'.get now k).1 = some value := by
    intro k hk
    rw [Store.get_fst_alive, hk, read_some, not_isExpired_expiryOf]
    rfl
  refine ⟨copy, hcopy, hread key hself, hread copy hother, ⟨e, hself, hother, ?_⟩, ?_⟩
  · rw [← Int64.not_lt]
    by_cases httl : 0 < ttl
    · simp [e, Store.expiryOf, httl]
    · simp [e, Store.expiryOf, httl]
  · intro k hk hne
    rw [mt.entry_writeToShards_of_ne s now hk, if_neg]
    rintro ⟨-, i, hi, he⟩
    exact hne i hi he

/-- A split key of a mitigator with two shards is written with a TTL. -/
theorem write_through_split :
    let mt : Mitigator := ⟨.new 1, 2, Finmap.singleton [107] .keySplit, 1⟩
    ∃ copy, mt.getShardedKey [107] [1] = some copy ∧
      ((mt.writeToShards (Store.newWithShards 1) 0 [107] [7] 5).get 0 copy).1 = some [7] := by
  intro mt
  obtain ⟨copy, hcopy, -, hget, -⟩ := mt.write_through 2 (by decide) (by decide)
    (Store.newWithShards 1) 0 [107] [7] 5 [1]
  exact ⟨copy, hcopy, hget⟩

end Mitigator

end DistCache
