/-
  `Get` and `Expire` are linearizable in the concurrent store.

  Every operation takes effect in one of its sections: a `Get` in its read section, the others in
  their only one.  These sections, in the order of the run, are a run of the atomic map from keys to
  values with an optional expiry (`Act.point`); the remaining sections, which remove expired entries
  or prepare one, do nothing to the map.

  `Delete` is not: it also reports an expired entry that no reader and no sweep has removed yet.
-/
import DistCache.Proof.Sections

namespace DistCache

open Lib

/-! ## The atomic map -/

/-- An operation that takes effect at one point; `put` has the entry of a `Set`. -/
inductive Point where
  | get (key : Key) (now : Time)
  | put (key : Key) (entry : Entry)
  | delete (key : Key)
  | expire (key : Key) (ttl : Duration) (now : Time)

/-- The map after an operation. -/
def TtlMap.take (m : TtlMap) : Point → TtlMap
  | .get key now => (m.exec (.get now key)).2
  | .put key entry => Function.update m key (some entry)
  | .delete key => Function.update m key none
  | .expire key ttl now => (m.exec (.expire now key ttl)).2

/-- The number of a paused `Get`. -/
def Paused.getID : Paused → Option ℕ
  | .get id _ => some id
  | .set _ _ => none

namespace LockedStore

/-- What a section does to the map, if it is the one in which its operation takes effect. -/
def Act.point : Act → Option Point
  | .readLocked key now => some (.get key now)
  | .setLocked key entry => some (.put key entry)
  | .delete key => some (.delete key)
  | .expire key ttl now => some (.expire key ttl now)
  | .writeLocked .. | .makeEntry .. | .sampleAndExpire .. => none

/-! ## The simulation -/

section
variable {c : LockedStore} {m : TtlMap} {a : Act}

/-- **One section**: it is matched by its point, or by nothing. -/
theorem sim_step (h : Sim c.clock c.store m) (ha : Enabled c a) :
    Sim (step c a).clock (step c a).store (run TtlMap.take m a.point.toList) := by
  have hle := clock_le_step ha
  cases a with
  | readLocked key now =>
    exact (h.mono hle).congr (readLocked_frame key now).1
  | writeLocked id key now =>
    exact h.swept hle (step_removes ha rfl)
  | makeEntry key value ttl now => exact h.mono hle
  | setLocked key entry =>
    exact h.update hle fun k => c.store.entry_insert key k entry
  | delete key => exact h.update hle fun k => c.store.entry_delete key k
  | expire key ttl now =>
    have hnow : c.clock ≤ now := hle
    obtain ⟨reply, s', hexec, -, hsim⟩ := h.exec (a := .expire now key ttl)
      (by simpa [Store.Act.times] using hnow) (by simp [Store.Act.times])
      (fun _ _ he => by cases he)
    obtain ⟨-, rfl⟩ := Prod.mk.inj (Option.some.inj hexec)
    exact hsim now hle (by simp [Store.Act.times])
  | sampleAndExpire index pass =>
    have hclock : (step c (.sampleAndExpire index pass)).clock = pass.now := step_clock
    rw [hclock] at hle ⊢
    exact h.swept hle (step_removes ha rfl)

/-! ## Every `Get` is answered once -/

/-- The `Get`s that have returned or are paused are those started, each once. -/
def Accounts (c : LockedStore) : Prop :=
  (c.returned.map Prod.fst ++ c.paused.filterMap Paused.getID).Perm (List.range c.started)

theorem Accounts.step (h : c.Accounts) (ha : Enabled c a) : (step c a).Accounts := by
  unfold Accounts at h ⊢
  cases a with
  | readLocked key now =>
    obtain ⟨hn, hcases⟩ := readLocked_cases (c := c) key now
    rw [hn, List.range_succ]
    rcases hcases with ⟨-, hp, hr⟩ | ⟨hp, hr⟩
    · rw [hp, hr, List.filterMap_append, ← List.append_assoc]
      exact h.append_right [c.started]
    · rw [hp, hr, List.map_append]
      refine List.Perm.trans ?_ (h.append_right [c.started])
      rw [List.append_assoc, List.append_assoc]
      exact List.perm_append_comm.append_left _
  | writeLocked id key now =>
    have hperm := ((List.perm_cons_erase ha.2).filterMap Paused.getID).append_left
      (c.returned.map Prod.fst)
    refine List.Perm.trans ?_ (hperm.symm.trans h)
    show ((c.returned ++ [(id, none)]).map Prod.fst ++
      (c.paused.erase (.get id key)).filterMap Paused.getID).Perm _
    rw [List.map_append, List.append_assoc]
    exact .refl _
  | makeEntry key value ttl now =>
    show (c.returned.map Prod.fst ++ (c.paused ++ [Paused.set key _]).filterMap Paused.getID).Perm _
    rw [List.filterMap_append, List.filterMap_cons_none rfl, List.filterMap_nil, List.append_nil]
    exact h
  | setLocked key entry =>
    have hperm := ((List.perm_cons_erase ha.2).filterMap Paused.getID).append_left
      (c.returned.map Prod.fst)
    exact hperm.symm.trans h
  | delete | expire => exact h
  | sampleAndExpire index pass =>
    obtain ⟨store, hstep⟩ := sampleAndExpire_frame (c := c) index pass
    rw [hstep]
    exact h

end

/-! ## Linearizability -/

/-- **`Get` and `Expire` are linearizable.**  For every interleaving of the sections of `Get`,
    `Set`, `Delete`, `Expire` and sweeper passes, the sections in which the operations take effect,
    in their order, are a run of the atomic TTL map `m`, such that:

    * a `Get` that has returned gave the answer of `m` at its point, however many sections of other
      operations came between its point and its return;
    * `Expire` gives the answer of `m`;
    * `Delete` answers true for every key that is live in `m`, but maybe for others too;
    * every `Get` started is paused or has returned, exactly once;
    * at the end the store has what `m` has, as far as it is not expired. -/
theorem get_expire_linearizable (store : Store) (clock : Time) (acts : List Act)
    (hacts : Along step Enabled (start store clock) acts) :
    let c := fun as => run step (start store clock) as
    let m := fun as => run TtlMap.take store.entry (as.filterMap Act.point)
    (∀ as key now bs, acts = as ++ .readLocked key now :: bs →
      ∀ value, ((c as).started, value) ∈ (c acts).returned →
        value = ((m as).find now key).map Entry.value) ∧
    (∀ as key ttl now bs, acts = as ++ .expire key ttl now :: bs →
      ((c as).store.expire now key ttl).1 = ((m as).find now key).isSome) ∧
    (∀ as key bs, acts = as ++ .delete key :: bs →
      ((m as).find (c as).clock key).isSome → ((c as).store.delete key).1 = true) ∧
    (((c acts).returned.map Prod.fst ++ (c acts).paused.filterMap Paused.getID).Perm
      (List.range (c acts).started)) ∧
    ∀ now, (c acts).clock ≤ now → ∀ key,
      (m acts).find now key = alive now ((c acts).store.entry key) := by
  intro c m
  have hsim : ∀ as, Along step Enabled (start store clock) as →
      Sim (c as).clock (c as).store (m as) :=
    fun as has => has.simulates (R := fun c m => Sim c.clock c.store m)
      (fun _ _ _ h ha => sim_step h ha) fun _ _ _ => rfl
  have hfind : ∀ as, Along step Enabled (start store clock) as → ∀ now, (c as).clock ≤ now → ∀ key,
      (m as).find now key = alive now ((c as).store.entry key) := by
    intro as has now hnow key
    rw [find_eq]
    exact (hsim as has now hnow key).symm
  refine ⟨?_, ?_, ?_, ?_, hfind acts hacts⟩
  · rintro as key now bs rfl value hvalue
    obtain ⟨has, ha, hbs⟩ := hacts.split
    have hcounted : (c as).Counted :=
      has.inv (I := Counted) (fun _ _ h ha => h.step ha) (start_counted store clock)
    -- the answer is fixed in the read section, and what comes later does not change it
    have hanswers := hbs.inv (I := Answers (c as).started ((c as).held key now))
      (fun _ _ h ha => h.step ha) (hcounted.answers key now)
    have hret : ((c as).started, value) ∈
        (run step (step (c as) (.readLocked key now)) bs).returned := by
      simpa [c] using hvalue
    rw [hfind as has now ha.1 key]
    exact hanswers.returned value hret
  · rintro as key ttl now bs rfl
    obtain ⟨has, ha, -⟩ := hacts.split
    rw [hfind as has now ha.1 key, Store.expire_fst]
    rfl
  · rintro as key bs rfl hlive
    obtain ⟨has, -, -⟩ := hacts.split
    rw [hfind as has _ le_rfl key] at hlive
    rw [Store.delete_fst]
    cases he : (c as).store.entry key with
    | none => simp [he, alive] at hlive
    | some e => rfl
  · exact hacts.inv (I := Accounts) (fun _ _ h ha => h.step ha) (.refl [])

/-- The `Get` that is overtaken by a `Set` answers as at its point, before the `Set`. -/
theorem get_expire_linearizable_overtaken :
    (0, none) ∈ (run step (start ((Store.newWithShards 1).set 0 [] [1] 4) 0) overtaken).returned ∧
      none = (TtlMap.find ((Store.newWithShards 1).set 0 [] [1] 4).entry 5 []).map Entry.value := by
  have hret : (0, none) ∈
      (run step (start ((Store.newWithShards 1).set 0 [] [1] 4) 0) overtaken).returned := by
    decide +kernel
  have h := get_expire_linearizable ((Store.newWithShards 1).set 0 [] [1] 4) 0 overtaken
    (by decide +kernel)
  exact ⟨hret, h.1 [] [] 5 _ rfl none hret⟩

end LockedStore

end DistCache
