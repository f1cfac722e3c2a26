/-
  The sharded store, with its lazy expiry and its sweeper, refines one map from keys
  to values with an optional expiry.

  Which expired entries are still present depends on the reads and passes so far.
  The simulation `Sim t` therefore compares the two sides only as far as they are
  alive from `t` on; what a pass removes (`Swept`) is never alive again.
-/
import DistCache.Proof.Calls

namespace DistCache

/-! ## The abstract map -/

/-- A map from keys to values with an optional expiry. -/
abbrev TtlMap := Key → Option Entry

namespace TtlMap

/-- The entry of a key, which is absent once the time is after its expiry. -/
def find (m : TtlMap) (now : Time) (key : Key) : Option Entry :=
  (m key).filter fun e => ¬ e.expiresAt.any fun t => t < now

/-- The expiry given by a TTL. -/
def expiry (now : Time) (ttl : Duration) : Option Time :=
  if ttl ≤ 0 then none else some (now + ttl.toInt)

/-- A call on the map; a sweep does nothing.  The answers are those of `Get` and
    `Expire`. -/
def exec (m : TtlMap) : Store.Act → Option Store.Reply × TtlMap
  | .get now key => (some (.get ((m.find now key).map Entry.value)), m)
  | .set now key value ttl => (none, Function.update m key (some ⟨value, expiry now ttl⟩))
  | .delete _ key => (none, Function.update m key none)
  | .expire now key ttl =>
    match m.find now key with
    | none => (some (.expire false), m)
    | some e => (some (.expire true), Function.update m key (some ⟨e.value, expiry now ttl⟩))
  | .sweep _ _ => (none, m)

/-- The answers to the calls of a run. -/
def replies (m : TtlMap) : List Store.Act → List (Option Store.Reply)
  | [] => []
  | a :: acts => (m.exec a).1 :: (m.exec a).2.replies acts

end TtlMap

/-- The answer of a call that the map gives too. -/
def Store.Reply.lasting : Store.Reply → Option Store.Reply
  | .get value => some (.get value)
  | .expire found => some (.expire found)
  | .delete _ | .done => none

/-! ## Live entries -/

/-- The entry, if it is not expired at `t`. -/
def alive (t : Time) (e : Option Entry) : Option Entry := e.filter fun e => !e.isExpired t

theorem Entry.isExpired_mono {e : Entry} {t t' : Time} (h : e.isExpired t = true) (ht : t ≤ t') :
    e.isExpired t' = true := by
  obtain ⟨value, _ | u⟩ := e
  · simp [Entry.isExpired] at h
  · simp only [Entry.isExpired, decide_eq_true_eq] at h ⊢
    exact lt_of_lt_of_le h ht

theorem alive_alive {t t' : Time} (ht : t ≤ t') (e : Option Entry) :
    alive t' (alive t e) = alive t' e := by
  rcases e with _ | e
  · rfl
  · by_cases hx : e.isExpired t
    · simp [alive, Option.filter, hx, Entry.isExpired_mono hx ht]
    · simp [alive, Option.filter, hx]

theorem find_eq (m : TtlMap) (now : Time) (key : Key) : m.find now key = alive now (m key) := by
  rcases h : m key with _ | ⟨value, _ | t⟩ <;>
    simp [TtlMap.find, alive, h, Option.filter, Entry.isExpired]

theorem expiry_eq (now : Time) (ttl : Duration) :
    TtlMap.expiry now ttl = Store.expiryOf now ttl := by
  simp only [TtlMap.expiry, Store.expiryOf, ← Int64.not_lt, ite_not]

/-- `after` is `before`, or an expired entry has been removed. -/
def Swept (now : Time) (before after : Option Entry) : Prop :=
  after = before ∨ after = none ∧ alive now before = none

theorem Swept.refl (now : Time) (e : Option Entry) : Swept now e e := Or.inl rfl

theorem Swept.trans {now : Time} {e e' e'' : Option Entry} (h : Swept now e e')
    (h' : Swept now e' e'') : Swept now e e'' := by
  rcases h with rfl | ⟨rfl, h⟩
  · exact h'
  · rcases h' with rfl | ⟨rfl, -⟩
    · exact Or.inr ⟨rfl, h⟩
    · exact Or.inr ⟨rfl, h⟩

theorem Swept.alive_eq {now t : Time} {e e' : Option Entry} (h : Swept now e e') (ht : now ≤ t) :
    alive t e' = alive t e := by
  rcases h with rfl | ⟨rfl, h⟩
  · rfl
  · rw [← alive_alive ht e, h]

/-! ## The sweeper -/

namespace Store

theorem Sampled.swept {items items' : Items} {now : Time} {sample : List Key}
    (h : Sampled items now sample items') (k : Key) :
    Swept now (items.lookup k) (items'.lookup k) := by
  rw [h.lookup k]
  split_ifs with hx
  · right
    refine ⟨rfl, ?_⟩
    have hx := hx.2
    rcases he : items.lookup k with _ | e
    · rfl
    · simpa [expiredAt, he, alive, Option.filter] using hx
  · exact .refl now _

/-- A pass removes expired entries only. -/
theorem sampleAndExpire_spec (s : Store) {index : ℕ} (hindex : index < s.shards.length)
    (pass : Pass) :
    ∃ expired s', s.sampleAndExpire index pass = some (expired, s') ∧
      s'.shards.length = s.shards.length ∧ ∀ k, Swept pass.now (s.entry k) (s'.entry k) := by
  have hitems := List.getElem?_eq_getElem hindex
  obtain ⟨sample, items', -, hs, hpass⟩ := s.sampleAndExpire_eq hitems pass
  refine ⟨_, _, hpass, ?_, fun k => ?_⟩
  · simp [Store.count, putIndex]
  · rw [entry_count]
    rcases s.entry_putIndex hitems items' k with ⟨h1, h2⟩ | h1
    · rw [h1, h2]
      exact hs.swept k
    · rw [h1]
      exact .refl _ _

end Store

/-! ## The simulation -/

/-- The store holds what the map holds, as far as it is alive from `t` on. -/
def Sim (t : Time) (s : Store) (m : TtlMap) : Prop :=
  ∀ u, t ≤ u → ∀ k, alive u (s.entry k) = alive u (m k)

section
variable {t now : Time} {s : Store} {m : TtlMap} {key : Key}

theorem Sim.mono (h : Sim t s m) (ht : t ≤ now) : Sim now s m := by
  intro u hu k
  exact h u (ht.trans hu) k

theorem Sim.congr {s' : Store} (h : Sim t s m) (hs : ∀ k, s'.entry k = s.entry k) : Sim t s' m := by
  intro u hu k
  rw [hs k]
  exact h u hu k

theorem Sim.swept {s' : Store} (h : Sim t s m) (ht : t ≤ now)
    (hs : ∀ k, Swept now (s.entry k) (s'.entry k)) : Sim now s' m := by
  intro u hu k
  rw [(hs k).alive_eq hu]
  exact h u (ht.trans hu) k

/-- A write of one key on both sides. -/
theorem Sim.update {s' : Store} {e : Option Entry} (h : Sim t s m) (ht : t ≤ now)
    (hs : ∀ k, s'.entry k = if k = key then e else s.entry k) :
    Sim now s' (Function.update m key e) := by
  intro u hu k
  rw [hs k]
  by_cases hk : k = key
  · subst hk; rw [if_pos rfl, Function.update_self]
  · rw [if_neg hk, Function.update_of_ne hk]
    exact h u (ht.trans hu) k

/-- The passes of `sweepShard`, as many as are run. -/
theorem Sim.sweepShard {index : ℕ} : ∀ {passes : List Pass} {s : Store} {t : Time}, Sim t s m →
    index < s.shards.length → (∀ p ∈ passes, t ≤ p.now) → (passes.map Pass.now).Pairwise (· ≤ ·) →
    ∃ s', Store.sweepShard index passes s = some s' ∧ s'.shards.length = s.shards.length ∧
      ∀ u, (∀ p ∈ passes, p.now ≤ u) → t ≤ u → Sim u s' m
  | [], s, t, h, _, _, _ => ⟨s, rfl, rfl, fun u _ hu => h.mono hu⟩
  | p :: passes, s, t, h, hindex, hge, hpw => by
    obtain ⟨expired, s', hpass, hlen, hsw⟩ := s.sampleAndExpire_spec hindex p
    have h' : Sim p.now s' m := h.swept (hge p List.mem_cons_self) hsw
    rw [List.map_cons, List.pairwise_cons] at hpw
    by_cases hex : expired < expiredThreshold
    · refine ⟨s', by simp [Store.sweepShard, hpass, hex], hlen, fun u hu _ => ?_⟩
      exact h'.mono (hu p List.mem_cons_self)
    · have hindex' : index < s'.shards.length := by omega
      obtain ⟨s'', hrun, hlen', hsim⟩ := h'.sweepShard hindex'
        (fun q hq => hpw.1 _ (List.mem_map_of_mem hq)) hpw.2
      refine ⟨s'', by simp [Store.sweepShard, hpass, hex, hrun], by omega, fun u hu _ => ?_⟩
      exact hsim u (fun q hq => hu q (List.mem_cons_of_mem p hq)) (hu p List.mem_cons_self)

/-- **One call.**  It is answered as by the map, and the simulation is kept from its
    last clock reading on. -/
theorem Sim.exec {a : Store.Act} (h : Sim t s m) (ht : ∀ u ∈ a.times, t ≤ u)
    (hpw : a.times.Pairwise (· ≤ ·))
    (hindex : ∀ index passes, a = .sweep index passes → index < s.shards.length) :
    ∃ reply s', s.exec a = some (reply, s') ∧ reply.lasting = (m.exec a).1 ∧
      ∀ u, t ≤ u → (∀ v ∈ a.times, v ≤ u) → Sim u s' (m.exec a).2 := by
  cases a with
  | get now key =>
    have hnow : t ≤ now := ht now (by simp [Store.Act.times])
    refine ⟨_, _, rfl, ?_, fun u _ hu => ?_⟩
    · simp only [Store.Reply.lasting, TtlMap.exec, find_eq, ← h now hnow key, s.get_fst]
      rfl
    · refine Sim.mono (h.swept hnow fun k => ?_) (hu now (by simp [Store.Act.times]))
      rw [s.entry_get]
      split_ifs with hk
      · subst hk
        rcases hx : alive now (s.entry k) with _ | e
        · exact Or.inr ⟨hx, hx⟩
        · exact Or.inl (hx.trans (Option.filter_eq_some_iff.1 hx).1.symm)
      · exact .refl now _
  | set now key value ttl =>
    have hnow : t ≤ now := ht now (by simp [Store.Act.times])
    refine ⟨_, _, rfl, rfl, fun u hu _ => ?_⟩
    refine h.update hu fun k => ?_
    rw [s.entry_set, expiry_eq]
  | delete now key =>
    refine ⟨_, _, rfl, rfl, fun u hu _ => ?_⟩
    exact h.update hu fun k => s.entry_delete key k
  | expire now key ttl =>
    have hnow : t ≤ now := ht now (by simp [Store.Act.times])
    have hfind : m.find now key = alive now (s.entry key) := by
      rw [find_eq, h now hnow key]
    refine ⟨_, _, rfl, ?_, fun u hu _ => ?_⟩
    · simp only [Store.Reply.lasting, TtlMap.exec, hfind, s.expire_fst]
      rcases hx : alive now (s.entry key) with _ | e
      · simp only [alive] at hx; rw [hx]; rfl
      · simp only [alive] at hx; rw [hx]; rfl
    · simp only [TtlMap.exec, hfind]
      rcases hx : alive now (s.entry key) with _ | e
      · refine (h.mono hu).congr fun k => ?_
        rw [s.entry_expire]
        split_ifs with hk
        · subst hk
          rcases he : s.entry k with _ | e
          · rfl
          · have hex : e.isExpired now = true := by simpa [alive, he, Option.filter] using hx
            simp [hex]
        · rfl
      · refine h.update hu fun k => ?_
        obtain ⟨he, hex⟩ := Option.filter_eq_some_iff.1 hx
        have hex' : e.isExpired now = false := by simpa using hex
        simp [s.entry_expire, he, expiry_eq, hex']
  | sweep index passes =>
    have hge : ∀ p ∈ passes, t ≤ p.now := fun p hp => ht p.now (List.mem_map_of_mem hp)
    obtain ⟨s', hrun, -, hsim⟩ := h.sweepShard (hindex index passes rfl) hge hpw
    refine ⟨_, s', by simp [Store.exec, hrun]; rfl, rfl, fun u hu hv => ?_⟩
    exact hsim u (fun p hp => hv p.now (List.mem_map_of_mem hp)) hu

end

/-- A run from `t` on, at non-decreasing times, whose sweeps name shards of the store. -/
structure Runs (t : Time) (s : Store) (acts : List Store.Act) : Prop where
  ge : ∀ u ∈ acts.flatMap Store.Act.times, t ≤ u
  mono : (acts.flatMap Store.Act.times).Pairwise (· ≤ ·)
  index : ∀ index passes, .sweep index passes ∈ acts → index < s.shards.length

/-- **The first call of a run**: the simulation goes on from its last clock reading. -/
theorem Sim.next {t : Time} {s : Store} {m : TtlMap} {a : Store.Act} {acts : List Store.Act}
    (h : Sim t s m) (hr : Runs t s (a :: acts)) :
    ∃ reply s' u, s.exec a = some (reply, s') ∧ reply.lasting = (m.exec a).1 ∧
      Sim u s' (m.exec a).2 ∧ Runs u s' acts := by
  obtain ⟨ht, hpw, hindex⟩ := hr
  rw [List.flatMap_cons] at ht hpw
  obtain ⟨hpa, hpr, hcross⟩ := List.pairwise_append.1 hpw
  obtain ⟨reply, s', hexec, hreply, hsim⟩ := h.exec
    (fun u hu => ht u (List.mem_append_left _ hu)) hpa
    (fun index passes ha => hindex index passes (ha ▸ List.mem_cons_self))
  obtain ⟨u, htu, hau, hur⟩ : ∃ u, t ≤ u ∧ (∀ v ∈ a.times, v ≤ u) ∧
      ∀ w ∈ acts.flatMap Store.Act.times, u ≤ w := by
    rcases List.eq_nil_or_concat a.times with hnil | ⟨l, u, hl⟩
    · exact ⟨t, le_rfl, by simp [hnil], fun w hw => ht w (List.mem_append_right _ hw)⟩
    · have hmem : u ∈ a.times := by simp [hl]
      refine ⟨u, ht u (List.mem_append_left _ hmem), fun v hv => ?_, hcross u hmem⟩
      rw [hl, List.concat_eq_append, List.mem_append, List.mem_singleton] at hv
      rw [hl, List.concat_eq_append, List.pairwise_append] at hpa
      rcases hv with hv | rfl
      · exact hpa.2.2 v hv u (by simp)
      · exact le_rfl
  refine ⟨reply, s', u, hexec, hreply, hsim u htu hau, hur, hpr, fun index passes ha => ?_⟩
  exact Store.length_exec hexec ▸ hindex index passes (List.mem_cons_of_mem a ha)

/-- **A run**, from any time at which the store and the map agree. -/
theorem Sim.replies : ∀ {acts : List Store.Act} {t : Time} {s : Store} {m : TtlMap}, Sim t s m →
    Runs t s acts → (s.replies acts).map (List.map Store.Reply.lasting) = some (m.replies acts)
  | [], _, _, _, _, _ => rfl
  | a :: acts, t, s, m, h, hr => by
    obtain ⟨reply, s', u, hexec, hreply, h', hr'⟩ := h.next hr
    obtain ⟨rest, hrest, hmap⟩ := Option.map_eq_some_iff.1 (h'.replies hr')
    simp [Store.replies, hexec, hrest, TtlMap.replies, hreply, hmap]

/-- A new store and the empty map agree when a run starts. -/
theorem exists_sim_new {shardCount : ℤ} {acts : List Store.Act}
    (htimes : (acts.flatMap Store.Act.times).Pairwise (· ≤ ·))
    (hsweep : ∀ index passes, .sweep index passes ∈ acts → index < Store.shardCountOf shardCount) :
    ∃ t, Sim t (Store.newWithShards shardCount) (fun _ => none) ∧
      Runs t (Store.newWithShards shardCount) acts := by
  have hlen : (Store.newWithShards shardCount).shards.length = Store.shardCountOf shardCount :=
    List.length_replicate
  obtain ⟨t, ht⟩ : ∃ t, ∀ u ∈ acts.flatMap Store.Act.times, t ≤ u := by
    rcases hl : acts.flatMap Store.Act.times with _ | ⟨t, l⟩
    · exact ⟨0, by simp⟩
    · rw [hl, List.pairwise_cons] at htimes
      refine ⟨t, fun u hu => ?_⟩
      rcases List.mem_cons.1 hu with rfl | hu
      · exact le_rfl
      · exact htimes.1 u hu
  refine ⟨t, fun u _ k => ?_, ht, htimes, fun index passes ha => ?_⟩
  · rw [Store.newWithShards_entry]
  · exact hlen ▸ hsweep index passes ha

/-- **The sharded store refines a TTL map.**  For every number of shards and every run of
    calls and sweeps at non-decreasing times, whatever the sweeper samples, no call panics
    and the answers of `Get` and `Expire` are those of one map. -/
theorem store_refines_ttlMap (shardCount : ℤ) (acts : List Store.Act)
    (htimes : (acts.flatMap Store.Act.times).Pairwise (· ≤ ·))
    (hsweep : ∀ index passes, .sweep index passes ∈ acts → index < Store.shardCountOf shardCount) :
    ((Store.newWithShards shardCount).replies acts).map (List.map Store.Reply.lasting) =
      some (TtlMap.replies (fun _ => none) acts) := by
  obtain ⟨t, hsim, hruns⟩ := exists_sim_new htimes hsweep
  exact hsim.replies hruns

/-- A write that expires, is swept while it is alive and again once it is not, and is
    read before and after. -/
theorem store_refines_ttlMap_expiring :
    ((Store.newWithShards 1).replies
      [.set 0 [1] [7] 10, .sweep 0 [⟨default, fun _ => 0, 5⟩], .get 10 [1], .expire 10 [1] 2,
        .sweep 0 [⟨default, fun _ => 0, 13⟩], .get 14 [1], .expire 14 [1] 0]).map
        (List.map Store.Reply.lasting) =
      some [none, none, some (.get (some [7])), some (.expire true), none, some (.get none),
        some (.expire false)] := by
  refine (store_refines_ttlMap 1 _ ?_ ?_).trans (by decide)
  · decide
  · intro index passes ha
    simp at ha
    rcases ha with ⟨rfl, -⟩ | ⟨rfl, -⟩ <;> decide

end DistCache
