/-
  The sweeper gets to every shard.

  The number of shards and the mask never change, so a key stays in its shard, and the index of the
  sweeper stays in range.  A visit of a small shard ends with a pass over the whole shard, which
  leaves no expired entry; and the sweeper is at most one round of visits away from any shard
  (`distance`).
-/
import DistCache.SweepLoop
import DistCache.Proof.Calls
import DistCache.Proof.Sections
import DistCache.Proof.Sweep

namespace DistCache

open Lib

/-! ## The shape of a store -/

namespace Store

theorem shape_lazyExpire (s : Store) (now : Time) (key : Key) :
    (s.lazyExpire now key).shape = s.shape := by
  unfold lazyExpire
  split
  · rfl
  · split_ifs
    · exact s.shape_putIndex _ _
    · rfl

theorem shape_sampleAndExpire {s s' : Store} {index : ℕ} {pass : Pass} {expired : ℚ}
    (h : s.sampleAndExpire index pass = some (expired, s')) : s'.shape = s.shape := by
  rcases hitems : s.shards[index]? with _ | items
  · simp [sampleAndExpire, hitems] at h
  · obtain ⟨sample, items', -, -, hpass⟩ := s.sampleAndExpire_eq hitems pass
    rw [hpass] at h
    obtain ⟨-, rfl⟩ := Prod.mk.inj (Option.some.inj h)
    exact s.shape_putIndex index items'

theorem shardIndex_congr {s s' : Store} (h : s'.shape = s.shape) (key : Key) :
    s'.shardIndex key = s.shardIndex key := by
  rw [shardIndex, shardIndex, (Prod.mk.inj h).2]

theorem length_congr {s s' : Store} (h : s'.shape = s.shape) :
    s'.shards.length = s.shards.length := (Prod.mk.inj h).1

/-- **A visit of a small shard is complete**: a pass over it leaves no expired entry. -/
theorem entry_sampleAndExpire {s s' : Store} {key : Key} {pass : Pass} {expired : ℚ}
    (hsmall : (s.getShard key).keys.card ≤ samplesPerSweep)
    (h : s.sampleAndExpire (s.shardIndex key) pass = some (expired, s')) {e : Entry}
    (he : s'.entry key = some e) : e.isExpired pass.now = false := by
  have hitems : s.shards[s.shardIndex key]? = some (s.getShard key) :=
    List.getElem?_eq_getElem (s.shardIndex_lt key)
  obtain ⟨sample, items', hlen, hs, hpass⟩ := s.sampleAndExpire_eq hitems pass
  rw [hpass] at h
  obtain ⟨-, rfl⟩ := Prod.mk.inj (Option.some.inj h)
  have hleft : items'.lookup key = some e := by
    rw [← he, entry_count]
    simp [entry, getShard, putIndex, shardIndex]
  refine hs.complete ?_ hleft
  rw [hlen, min_eq_left hsmall]

end Store

namespace LockedStore

theorem shape_step (c : LockedStore) (a : Act) : (step c a).store.shape = c.store.shape := by
  cases a with
  | readLocked key now =>
    simp only [step, readLocked]
    split
    · rfl
    · split_ifs <;> rfl
  | writeLocked id key now => exact c.store.shape_lazyExpire now key
  | makeEntry key value ttl now => rfl
  | setLocked key entry => exact c.store.shape_putIndex _ _
  | delete key => exact (Store.exec_effect (s := c.store) (a := .delete c.clock key) rfl).shape
  | expire key ttl now => exact (Store.exec_effect (s := c.store) (a := .expire now key ttl) rfl).shape
  | sampleAndExpire index pass =>
    simp only [step, sampleAndExpire]
    split
    · rfl
    · rename_i h
      exact Store.shape_sampleAndExpire h

/-- The section puts an entry of `k`. -/
def Act.Puts (k : Key) : Act → Prop
  | .setLocked key _ => key = k
  | _ => False

/-- The key has no entry, or one that is expired. -/
def Dead (c : LockedStore) (k : Key) : Prop :=
  ∀ e, c.store.entry k = some e → e.isExpired c.clock = true

variable {c : LockedStore} {a : Act} {k : Key}

/-- A section that does not put an entry of `k` leaves no new one, if the old one is expired. -/
theorem Dead.entry_step (h : c.Dead k) (ha : Enabled c a) (hk : ¬ a.Puts k) {e : Entry}
    (he : (step c a).store.entry k = some e) : c.store.entry k = some e := by
  by_cases hw : a.Writes k
  · cases a with
    | setLocked key entry => exact absurd hw hk
    | delete key =>
      have hnone : (step c (.delete key)).store.entry k = none :=
        (c.store.entry_delete key k).trans (if_pos (Eq.symm hw))
      rw [hnone] at he
      cases he
    | expire key ttl now =>
      obtain rfl : key = k := hw
      have hentry : (step c (.expire key ttl now)).store.entry key = _ :=
        (c.store.entry_expire now key key ttl).trans (if_pos rfl)
      rw [hentry] at he
      obtain ⟨e', he', heq⟩ := Option.map_eq_some_iff.1 he
      -- the clock of `Expire` finds it expired as well
      have hnow : c.clock ≤ now := ha.1
      rw [if_pos (Entry.isExpired_mono (h e' he') hnow)] at heq
      rw [he', heq]
    | _ => exact absurd hw id
  · rcases step_swept ha hw with hkeep | ⟨hnone, -⟩
    · rw [← hkeep]
      exact he
    · rw [hnone] at he
      cases he

theorem Dead.step (h : c.Dead k) (ha : Enabled c a) (hk : ¬ a.Puts k) : (step c a).Dead k :=
  fun e he => Entry.isExpired_mono (h e (h.entry_step ha hk he)) (clock_le_step ha)

end LockedStore

/-! ## The rounds of the sweeper -/

namespace SweptStore

/-- The step is a pass that ends the visit of a shard because few of its sample are expired. -/
def completes (s : SweptStore) : Act → Bool
  | .pass pass => s.fraction pass < expiredThreshold
  | _ => false

/-- A pass meets a shard that it samples as a whole. -/
def Small (s : SweptStore) : Act → Prop
  | .pass _ => ∀ items, s.locked.store.shards[s.sweeper.shardIndex]? = some items →
      items.keys.card ≤ samplesPerSweep
  | _ => True

/-- The index of the sweeper is in range. -/
def InRange (s : SweptStore) : Prop := s.sweeper.shardIndex < s.locked.store.shards.length

variable {s : SweptStore} {a : Act}

theorem start_inRange (shardCount : ℤ) (interval : Duration) (clock : Time) :
    (start shardCount interval clock).InRange :=
  (Store.newWithShards shardCount).shardIndex_lt [] |>.trans_le' (Nat.zero_le _)

/-- What a step does to the locked store: nothing, or a section. -/
theorem locked_step (h : s.InRange) (ha : s.Enabled a) :
    (s.step a).locked = s.locked ∨
      ∃ b, s.locked.Enabled b ∧ (s.step a).locked = s.locked.step b ∧
        (∀ k, b.Puts k → a = .op b) := by
  cases a with
  | op b => exact .inr ⟨b, ha.1, rfl, fun _ _ => rfl⟩
  | tick | stop | exit => exact .inl rfl
  | pass pass =>
    refine .inr ⟨.sampleAndExpire s.sweeper.shardIndex pass, ⟨ha.2, h⟩, ?_, fun k hk => by cases hk⟩
    simp only [step, SweptStore.pass]
    split_ifs <;> rfl

theorem shape_step (h : s.InRange) (ha : s.Enabled a) :
    (s.step a).locked.store.shape = s.locked.store.shape := by
  rcases locked_step h ha with heq | ⟨b, -, heq, -⟩
  · rw [heq]
  · rw [heq, LockedStore.shape_step]

/-- Where the sweeper is after a step. -/
theorem shardIndex_step (s : SweptStore) (a : Act) :
    (s.step a).sweeper.shardIndex = s.sweeper.shardIndex ∨
      (s.step a).sweeper.shardIndex =
        (s.sweeper.shardIndex + 1) % s.locked.store.shards.length := by
  cases a with
  | pass pass =>
    simp only [step, SweptStore.pass]
    split_ifs
    · right
      simp only [endVisit]
      rw [Store.length_congr (LockedStore.shape_step _ _)]
    · exact .inl rfl
  | _ => exact .inl rfl

theorem InRange.step (h : s.InRange) (ha : s.Enabled a) : (s.step a).InRange := by
  unfold InRange at h ⊢
  rw [Store.length_congr (shape_step h ha)]
  rcases shardIndex_step s a with hidx | hidx
  · rw [hidx]
    exact h
  · rw [hidx]
    exact Nat.mod_lt _ (Nat.zero_lt_of_lt h)

theorem stopped_step (hs : s.sweeper.stopped = true) (a : Act) :
    (s.step a).sweeper.stopped = true := by
  cases a with
  | pass pass =>
    simp only [step, SweptStore.pass]
    split_ifs <;> exact hs
  | stop => rfl
  | op | tick | exit => exact hs

/-- The number of visits before the one of shard `target`. -/
def distance (s : SweptStore) (target : ℕ) : ℕ :=
  if s.sweeper.shardIndex ≤ target then target - s.sweeper.shardIndex
  else target + s.locked.store.shards.length - s.sweeper.shardIndex

/-- A step that ends no visit of another shard comes no closer to a shard; one that does comes
    closer by one. -/
theorem distance_step (h : s.InRange) (ha : s.Enabled a) (hs : s.sweeper.stopped = false)
    {target : ℕ} (htarget : target < s.locked.store.shards.length)
    (hne : s.completes a = true → s.sweeper.shardIndex ≠ target) :
    (s.step a).distance target + (s.completes a).toNat = s.distance target := by
  have hlen := Store.length_congr (shape_step h ha)
  unfold InRange at h
  by_cases hc : s.completes a = true
  · have hidx : (s.step a).sweeper.shardIndex =
        (s.sweeper.shardIndex + 1) % s.locked.store.shards.length := by
      cases a with
      | pass pass =>
        simp only [step, SweptStore.pass]
        rw [if_pos (.inl (of_decide_eq_true hc))]
        simp only [endVisit]
        rw [Store.length_congr (LockedStore.shape_step _ _)]
      | _ => cases hc
    have hne := hne hc
    rw [distance, distance, hlen, hidx, hc, Bool.toNat_true]
    -- the index wraps around after the last shard
    rcases Nat.lt_or_ge (s.sweeper.shardIndex + 1) s.locked.store.shards.length with hlt | hge
    · rw [Nat.mod_eq_of_lt hlt]
      split_ifs <;> omega
    · rw [show s.sweeper.shardIndex + 1 = s.locked.store.shards.length by omega, Nat.mod_self]
      split_ifs <;> omega
  · have hidx : (s.step a).sweeper.shardIndex = s.sweeper.shardIndex := by
      cases a with
      | pass pass =>
        simp only [step, SweptStore.pass]
        rw [if_neg]
        rintro (hlt | hstop)
        · exact hc (decide_eq_true hlt)
        · rw [hs] at hstop
          cases hstop
      | _ => rfl
    rw [distance, distance, hlen, hidx, Bool.eq_false_of_not_eq_true hc, Bool.toNat_false,
      Nat.add_zero]

/-! ## What a round removes -/

variable {key : Key}

theorem dead_step (h : s.InRange) (ha : s.Enabled a) (hdead : s.locked.Dead key)
    (hput : ∀ b, a = .op b → ¬ b.Puts key) :
    (s.step a).locked.Dead key ∧
      (s.locked.store.entry key = none → (s.step a).locked.store.entry key = none) := by
  rcases locked_step h ha with heq | ⟨b, hb, heq, hop⟩
  · rw [heq]
    exact ⟨hdead, id⟩
  · have hput' : ¬ b.Puts key := fun hk => hput b (hop key hk) hk
    rw [heq]
    refine ⟨hdead.step hb hput', fun hnone => ?_⟩
    rw [Option.eq_none_iff_forall_ne_some]
    intro e he
    rw [hdead.entry_step hb hput' he] at hnone
    cases hnone

/-- The visit of its shard removes a key that is expired. -/
theorem completes_removes (h : s.InRange) (ha : s.Enabled a) (hsmall : s.Small a)
    (hdead : s.locked.Dead key) (hc : s.completes a = true)
    (hidx : s.sweeper.shardIndex = s.locked.store.shardIndex key) :
    (s.step a).locked.store.entry key = none := by
  cases a with
  | pass pass =>
    have hitems : s.locked.store.shards[s.locked.store.shardIndex key]? =
        some (s.locked.store.getShard key) := List.getElem?_eq_getElem _
    have hcard := hsmall _ (by rw [hidx]; exact hitems)
    have hlt : s.sweeper.shardIndex < s.locked.store.shards.length := h
    obtain ⟨expired, s', hpass, -, hswept⟩ := s.locked.store.sampleAndExpire_spec hlt pass
    have hstore : (s.step (.pass pass)).locked.store = s' := by
      have hlocked : (s.step (.pass pass)).locked =
          s.locked.step (.sampleAndExpire s.sweeper.shardIndex pass) := by
        simp only [step, SweptStore.pass]
        split_ifs <;> rfl
      rw [hlocked]
      simp only [LockedStore.step, LockedStore.sampleAndExpire, hpass]
    rw [hstore, Option.eq_none_iff_forall_ne_some]
    intro e he
    rw [hidx] at hpass
    have hlive := Store.entry_sampleAndExpire hcard hpass he
    -- but the entry was expired before the pass
    have hold : s.locked.store.entry key = some e := by
      rcases hswept key with hkeep | ⟨hnone, -⟩
      · rw [← hkeep]
        exact he
      · rw [hnone] at he
        cases he
    rw [Entry.isExpired_mono (hdead e hold) ha.2] at hlive
    cases hlive
  | _ => cases hc

theorem removed_of_visits {acts : List Act} {s : SweptStore} (hrun : Along step Enabled s acts)
    (h : s.InRange) (hstop : (run step s acts).sweeper.stopped = false)
    (hsmall : Along step Small s acts)
    (hput : ∀ a ∈ acts, ∀ b, a = .op b → ¬ b.Puts key) (hdead : s.locked.Dead key)
    (hvisits : s.locked.store.entry key = none ∨
      s.distance (s.locked.store.shardIndex key) < (outputs step completes s acts).count true) :
    (run step s acts).locked.store.entry key = none := by
  induction acts generalizing s with
  | nil =>
    rcases hvisits with hnone | hlt
    · exact hnone
    · exact absurd hlt (Nat.not_lt_zero _)
  | cons a acts ih =>
    have hs : s.sweeper.stopped = false := by
      by_contra hs
      have hend : (run step (s.step a) acts).sweeper.stopped = true :=
        run_inv (I := fun s : SweptStore => s.sweeper.stopped = true)
          (fun s b hs => stopped_step hs b)
          (stopped_step (Bool.eq_true_of_not_eq_false hs) a) acts
      rw [run_cons, hend] at hstop
      cases hstop
    obtain ⟨hdead', hnone'⟩ := dead_step h hrun.1 hdead fun b => hput a List.mem_cons_self b
    refine ih hrun.2 (h.step hrun.1) hstop hsmall.2
      (fun b hb => hput b (List.mem_cons_of_mem a hb)) hdead' ?_
    rcases hvisits with hnone | hlt
    · exact .inl (hnone' hnone)
    · by_cases hhere : s.completes a = true ∧
          s.sweeper.shardIndex = s.locked.store.shardIndex key
      · exact .inl (completes_removes h hrun.1 hsmall.1 hdead hhere.1 hhere.2)
      · right
        have hdist := distance_step h hrun.1 hs (s.locked.store.shardIndex_lt key)
          fun hc heq => hhere ⟨hc, heq⟩
        rw [Store.shardIndex_congr (shape_step h hrun.1)]
        simp only [outputs, List.count_cons] at hlt
        rcases hc : s.completes a with _ | _
        · simp [hc] at hlt hdist
          omega
        · simp [hc] at hlt hdist
          omega

/-- **No expired entry outlives a round.**  In every interleaving of the sweeper with the sections
    of the other operations, the index of the sweeper is in range.  Take any point of a run, and
    an entry that is expired there: if its key is not set again, the sweeper is not stopped and its
    passes meet shards of at most 20 entries, then the entry is gone once the sweeper has completed
    as many visits as there are shards. -/
theorem no_expired_entry_outlives_round (shardCount : ℤ) (interval : Duration) (clock : Time)
    (before acts : List Act)
    (hrun : Along step Enabled (start shardCount interval clock) (before ++ acts)) :
    let s := run step (start shardCount interval clock) before
    let s' := run step s acts
    s'.sweeper.shardIndex < s'.locked.store.shards.length ∧
      ∀ key e, s.locked.store.entry key = some e → e.isExpired s.locked.clock = true →
        s'.sweeper.stopped = false → (∀ entry, .op (.setLocked key entry) ∉ acts) →
        Along step Small s acts →
        s.locked.store.shards.length ≤ (outputs step completes s acts).count true →
        s'.locked.store.entry key = none := by
  intro s s'
  obtain ⟨hbefore, hacts⟩ := along_append.1 hrun
  have hs : s.InRange := hbefore.inv (I := InRange) (fun _ _ h ha => h.step ha)
    (start_inRange shardCount interval clock)
  refine ⟨hacts.inv (I := InRange) (fun _ _ h ha => h.step ha) hs, ?_⟩
  intro key e he hx hstop hput hsmall hvisits
  have hdead : s.locked.Dead key := by
    intro e' he'
    obtain rfl := Option.some.inj (he.symm.trans he')
    exact hx
  have hnoput : ∀ a ∈ acts, ∀ b, a = .op b → ¬ b.Puts key := by
    rintro _ ha b rfl hb
    cases b with
    | setLocked key' entry =>
      obtain rfl : key' = key := hb
      exact hput entry ha
    | _ => exact hb
  refine removed_of_visits hacts hs hstop hsmall hnoput hdead (.inr ?_)
  have hkey := s.locked.store.shardIndex_lt key
  unfold InRange at hs
  unfold distance
  split_ifs <;> omega

instance (s : SweptStore) : ∀ a, Decidable (s.Small a)
  | .pass _ => decidable_of_iff ((s.locked.store.shards[s.sweeper.shardIndex]?).all fun items =>
      items.keys.card ≤ samplesPerSweep) (by simp [Small, Option.all_eq_true])
  | .op _ | .tick | .stop | .exit => inferInstanceAs (Decidable True)

/-- Two keys with a TTL and one without are written to two shards; the TTLs pass. -/
def lapsed : List Act :=
  [.op (.makeEntry [1] [1] 5 0), .op (.setLocked [1] ⟨[1], some 5⟩),
    .op (.makeEntry [3] [3] 0 1), .op (.setLocked [3] ⟨[3], none⟩),
    .op (.makeEntry [2] [2] 5 2), .op (.setLocked [2] ⟨[2], some 7⟩),
    .op (.readLocked [4] 9)]

/-- The sweeper visits both shards.  In the first one a pass finds one of two keys expired, and the
    next one nothing; a key is read meanwhile. -/
noncomputable def visited : List Act :=
  [.tick, .pass ⟨.listing [⟨[1], ⟨[1], some 5⟩⟩, ⟨[3], ⟨[3], none⟩⟩], fun _ => 0, 10⟩,
    .op (.readLocked [3] 10), .pass ⟨.listing [⟨[3], ⟨[3], none⟩⟩], fun _ => 0, 11⟩,
    .tick, .pass ⟨.listing [⟨[2], ⟨[2], some 7⟩⟩], fun _ => 0, 12⟩,
    .pass ⟨.listing [], fun _ => 0, 13⟩]

/-- Both expired keys are gone then. -/
theorem no_expired_entry_outlives_visits :
    let s := run step (start 2 0 0) lapsed
    s.locked.store.entry [1] = some ⟨[1], some 5⟩ ∧
      s.locked.store.entry [2] = some ⟨[2], some 7⟩ ∧
      (run step s visited).locked.store.entry [1] = none ∧
      (run step s visited).locked.store.entry [2] = none := by
  have he₁ : (run step (start 2 0 0) lapsed).locked.store.entry [1] = some ⟨[1], some 5⟩ := by
    decide +kernel
  have he₂ : (run step (start 2 0 0) lapsed).locked.store.entry [2] = some ⟨[2], some 7⟩ := by
    decide +kernel
  have h := (no_expired_entry_outlives_round 2 0 0 lapsed visited (by decide +kernel)).2
  have hsmall : Along step Small (run step (start 2 0 0) lapsed) visited := by decide +kernel
  refine ⟨he₁, he₂, h [1] _ he₁ ?_ ?_ (fun entry => by simp [visited]) hsmall ?_,
    h [2] _ he₂ ?_ ?_ (fun entry => by simp [visited]) hsmall ?_⟩
  all_goals decide +kernel

end SweptStore

end DistCache
