/-
  What a call of the store, or a sweep, can do.

  `Effect` lists the ways a call can end, and an invariant of all runs is a case analysis on it
  (`after_inv`), with `sweepShard_inv` for the sweeps.
-/
import DistCache.Proof.Sampling

namespace DistCache

namespace Store

/-! ## Calls -/

/-- The store after a call, with the entry that decides. -/
inductive Effect (s : Store) : Act → Store → Prop
  | hit {now key e} (he : s.entry key = some e) (hx : e.isExpired now = false) :
    Effect s (.get now key) (s.count fun st => { st with hits := st.hits + 1 })
  | miss {now key} (he : s.entry key = none) :
    Effect s (.get now key) (s.count fun st => { st with misses := st.misses + 1 })
  /-- The lazy expiry. -/
  | lapse {now key e} (he : s.entry key = some e) (hx : e.isExpired now = true) :
    Effect s (.get now key) ((s.putShard key ((s.getShard key).erase key)).count fun st =>
      { st with misses := st.misses + 1, expirations := st.expirations + 1 })
  | set (now key value ttl) : Effect s (.set now key value ttl) (s.set now key value ttl)
  | delete {now key e} (he : s.entry key = some e) :
    Effect s (.delete now key) ((s.putShard key ((s.getShard key).erase key)).count fun st =>
      { st with deletes := st.deletes + 1 })
  | absent {now key} (he : s.entry key = none) : Effect s (.delete now key) s
  | expire {now key e} (he : s.entry key = some e) (e') (ttl) :
    Effect s (.expire now key ttl) (s.putShard key ((s.getShard key).insert key e'))
  | unfound (now key ttl) : Effect s (.expire now key ttl) s
  | sweep {index passes s'} (hs : s.sweepShard index passes = some s') :
    Effect s (.sweep index passes) s'

theorem exec_effect {s s' : Store} {a : Act} {reply : Reply} (ha : s.exec a = some (reply, s')) :
    s.Effect a s' := by
  cases a with
  | get now key =>
    obtain ⟨-, rfl⟩ := Prod.mk.inj (Option.some.inj ha)
    unfold get
    split
    · rename_i he
      exact .miss he
    · rename_i e he
      split_ifs with hx
      · simp only [lazyExpire, he, if_pos hx]
        exact .lapse he hx
      · exact .hit he (by simpa using hx)
  | set now key value ttl =>
    obtain ⟨-, rfl⟩ := Prod.mk.inj (Option.some.inj ha)
    exact .set now key value ttl
  | delete now key =>
    obtain ⟨-, rfl⟩ := Prod.mk.inj (Option.some.inj ha)
    unfold delete
    split
    · rename_i he
      exact .absent he
    · rename_i e he
      exact .delete he
  | expire now key ttl =>
    obtain ⟨-, rfl⟩ := Prod.mk.inj (Option.some.inj ha)
    unfold expire
    split
    · exact .unfound now key ttl
    · rename_i e he
      split_ifs
      · exact .unfound now key ttl
      · exact .expire he _ ttl
  | sweep index passes =>
    obtain ⟨s₁, hs, he⟩ := Option.map_eq_some_iff.1 ha
    obtain ⟨-, rfl⟩ := Prod.mk.inj he
    exact .sweep hs

/-- The store after a pass that leaves `items` of a shard and deletes `n` entries. -/
def swept (s : Store) (index : ℕ) (items : Items) (n : ℕ) : Store :=
  (s.putIndex index items).count fun st => { st with expirations := st.expirations + n.toUInt64 }

/-- **The invariant rule for passes**: what every pass preserves, `sweepShard` preserves. -/
theorem sweepShard_inv {I : Store → Prop} {index : ℕ}
    (hpass : ∀ s items now sample items', I s → s.shards[index]? = some items →
      Sampled items now sample items' →
      I (s.swept index items' (sample.countP (expiredAt items now)))) :
    ∀ {passes : List Pass} {s s' : Store}, I s → s.sweepShard index passes = some s' → I s'
  | [], s, s', h, hs => Option.some.inj hs ▸ h
  | pass :: passes, s, s', h, hs => by
    obtain ⟨⟨expired, s₁⟩, hp, hs⟩ := Option.bind_eq_some_iff.1 hs
    obtain ⟨items, hitems, -⟩ := Option.bind_eq_some_iff.1 hp
    obtain ⟨sample, items', -, hsample, heq⟩ := s.sampleAndExpire_eq hitems pass
    obtain ⟨-, rfl⟩ := Prod.mk.inj (Option.some.inj (hp.symm.trans heq))
    have h₁ := hpass s items pass.now sample items' h hitems hsample
    dsimp only at hs
    split_ifs at hs
    · exact Option.some.inj hs ▸ h₁
    · exact sweepShard_inv hpass h₁ hs

/-- **The invariant rule for runs**: what every call preserves, a run preserves. -/
theorem after_inv {I : Store → Prop} (hcall : ∀ s a s', I s → s.Effect a s' → I s') :
    ∀ {acts : List Act} {s s' : Store}, I s → s.after acts = some s' → I s'
  | [], s, s', h, hs => Option.some.inj hs ▸ h
  | a :: acts, s, s', h, hs => by
    obtain ⟨⟨reply, s₁⟩, ha, hs⟩ := Option.bind_eq_some_iff.1 hs
    exact after_inv hcall (hcall s a s₁ h (exec_effect ha)) hs

/-! ## Invariants -/

/-- The number of shards and the mask. -/
def shape (s : Store) : ℕ × UInt32 := (s.shards.length, s.shardMask)

theorem shape_putIndex (s : Store) (index : ℕ) (items : Items) :
    (s.putIndex index items).shape = s.shape := by
  simp [shape, putIndex]

theorem Effect.shape {s s' : Store} {a : Act} (h : s.Effect a s') : s'.shape = s.shape := by
  cases h with
  | hit | miss | absent | unfound => rfl
  | lapse | delete | set | expire => exact s.shape_putIndex _ _
  | sweep hs =>
    refine sweepShard_inv (I := fun s₁ => s₁.shape = s.shape) ?_ rfl hs
    intro s₁ items now sample items' h₁ _ _
    exact (s₁.shape_putIndex _ items').trans h₁

theorem shape_after {acts : List Act} {s s' : Store} (hs : s.after acts = some s') :
    s'.shape = s.shape :=
  after_inv (I := fun s₁ => s₁.shape = s.shape) (fun _ _ _ h heff => heff.shape.trans h) rfl hs

theorem length_exec {s s' : Store} {a : Act} {reply : Reply} (ha : s.exec a = some (reply, s')) :
    s'.shards.length = s.shards.length :=
  congrArg Prod.fst (exec_effect ha).shape

theorem Placed.call {s s' : Store} {a : Act} (h : s.Placed) (heff : s.Effect a s') : s'.Placed := by
  cases heff with
  | hit | miss | absent | unfound => exact h
  | lapse | delete => exact Placed.putShard s _ h fun _ hk => Or.inr (Finmap.mem_erase.1 hk).2
  | set now key value ttl => exact Placed.set s now key h value ttl
  | expire => exact Placed.putShard s _ h fun _ hk => Finmap.mem_insert.1 hk
  | sweep hs =>
    refine sweepShard_inv (I := Placed) ?_ h hs
    intro s₁ items now sample items' h₁ hitems hsample
    exact Placed.putIndex h₁ hitems fun k hk => hsample.mem_of_mem hk

theorem Placed.after {acts : List Act} {s s' : Store} (h : s.Placed)
    (hs : s.after acts = some s') : s'.Placed :=
  after_inv (fun _ _ _ h heff => Placed.call h heff) h hs

theorem Reached.placed {s : Store} (h : s.Reached) : s.Placed := by
  obtain ⟨shardCount, acts, hs⟩ := h
  exact (placed_newWithShards shardCount).after hs

end Store

end DistCache
