/-
  Interleavings of the locked sections of the store.

  * `read_sections`, `set_sections`: the sections of one operation, without others in
    between, are the operation;
  * `step_swept`: a section that does not write a key keeps its entry, unless the entry is
    expired when the section reads the clock;
  * `Answers`: what a `Get` returns is decided in its read section.
-/
import DistCache.Sections
import DistCache.Proof.TtlMap
import DistCache.Lib.Run

namespace DistCache

open Lib

theorem Swept.mono {now t : Time} {e e' : Option Entry} (h : Swept now e e') (ht : now ≤ t) :
    Swept t e e' := by
  rcases h with h | ⟨h, hdead⟩
  · exact Or.inl h
  · right
    refine ⟨h, ?_⟩
    rw [← alive_alive ht, hdead]
    rfl

namespace LockedStore

/-- The time at which a section removes expired entries. -/
def Act.removesAt : Act → Option Time
  | .writeLocked _ _ now => some now
  | .sampleAndExpire _ pass => some pass.now
  | _ => none

/-- The section writes or deletes the entry of `k`. -/
def Act.Writes (k : Key) : Act → Prop
  | .setLocked key _ | .delete key | .expire key _ _ => key = k
  | _ => False

/-! ## The sections of one operation -/

/-- The sections of a `Get`, without others in between, are `Get`. -/
theorem read_sections (store : Store) (clock now : Time) (key : Key) :
    ∃ acts, run step (start store clock) (.readLocked key now :: acts) =
      ⟨(store.get now key).2, [], 1, [(0, (store.get now key).1)], now⟩ := by
  rcases he : (store.getShard key).lookup key with _ | entry
  · refine ⟨[], ?_⟩
    simp [step, start, readLocked, reply, Store.get, Act.now, he]
  · by_cases hx : entry.isExpired now = true
    · refine ⟨[.writeLocked 0 key now], ?_⟩
      simp [step, start, readLocked, writeLocked, reply, Store.get, Act.now, he, hx]
    · refine ⟨[], ?_⟩
      simp [step, start, readLocked, reply, Store.get, Act.now, he, hx]

/-- The steps of a `Set`, without others in between, are `Set`. -/
theorem set_sections (store : Store) (clock now : Time) (key : Key) (value : Value)
    (ttl : Duration) :
    run step (start store clock)
        [.makeEntry key value ttl now, .setLocked key ⟨value, Store.expiryOf now ttl⟩] =
      start (store.set now key value ttl) now := by
  simp [step, start, makeEntry, setLocked, Store.set, Act.now]

/-! ## Entries -/

section
variable {c : LockedStore} {a : Act}

/-- A read section changes no entry. -/
theorem readLocked_frame (key : Key) (now : Time) :
    (∀ k, (step c (.readLocked key now)).store.entry k = c.store.entry k) ∧
      (step c (.readLocked key now)).clock = now := by
  simp only [step, readLocked]
  split
  · exact ⟨fun _ => rfl, rfl⟩
  · split_ifs
    · exact ⟨fun _ => rfl, rfl⟩
    · exact ⟨fun _ => rfl, rfl⟩

/-- A pass of the sweeper changes the store and the clock only. -/
theorem sampleAndExpire_frame (index : ℕ) (pass : Pass) :
    ∃ store, step c (.sampleAndExpire index pass) = { c with store, clock := pass.now } := by
  simp only [step, sampleAndExpire]
  split
  · exact ⟨c.store, rfl⟩
  · exact ⟨_, rfl⟩

/-- A section that removes expired entries removes no other. -/
theorem step_removes (h : Enabled c a) {now : Time} (hnow : a.removesAt = some now) (k : Key) :
    Swept now (c.store.entry k) ((step c a).store.entry k) := by
  cases a with
  | writeLocked id key t =>
    obtain rfl : t = now := Option.some.inj hnow
    have hentry : (step c (.writeLocked id key t)).store.entry k =
        if k = key then alive t (c.store.entry key) else c.store.entry k :=
      c.store.entry_lazyExpire t key k
    rw [hentry]
    split_ifs with hk
    · subst hk
      rcases he : c.store.entry k with _ | e
      · exact .refl t _
      · by_cases hx : e.isExpired t = true
        · right
          simp [alive, Option.filter_some, hx]
        · left
          simp [alive, Option.filter_some, hx]
    · exact .refl t _
  | sampleAndExpire index pass =>
    obtain rfl : pass.now = now := Option.some.inj hnow
    obtain ⟨expired, s', hs, -, hswept⟩ := c.store.sampleAndExpire_spec h.2 pass
    have hstore : (step c (.sampleAndExpire index pass)).store = s' := by
      simp only [step, sampleAndExpire, hs]
    rw [hstore]
    exact hswept k
  | _ => cases hnow

/-- A section that neither writes `k` nor removes expired entries keeps the entry of `k`. -/
theorem step_entry {k : Key} (hw : ¬ a.Writes k) (hr : a.removesAt = none) :
    (step c a).store.entry k = c.store.entry k := by
  cases a with
  | readLocked key now => exact (readLocked_frame key now).1 k
  | makeEntry key value ttl now => rfl
  | setLocked key entry =>
    have hne : k ≠ key := fun he => hw he.symm
    exact (c.store.entry_insert key k entry).trans (if_neg hne)
  | delete key =>
    have hne : k ≠ key := fun he => hw he.symm
    exact (c.store.entry_delete key k).trans (if_neg hne)
  | expire key ttl now =>
    have hne : k ≠ key := fun he => hw he.symm
    exact (c.store.entry_expire now key k ttl).trans (if_neg hne)
  | _ => cases hr

theorem step_clock : (step c a).clock = a.now.getD c.clock := by
  cases a with
  | readLocked key now => exact (readLocked_frame key now).2
  | sampleAndExpire index pass =>
    obtain ⟨store, hstep⟩ := sampleAndExpire_frame (c := c) index pass
    rw [hstep]
    rfl
  | _ => rfl

theorem clock_le_step (h : Enabled c a) : c.clock ≤ (step c a).clock := by
  rw [step_clock]
  exact h.1

/-- A section that does not write `k` keeps its entry, or the entry is expired. -/
theorem step_swept (h : Enabled c a) {k : Key} (hw : ¬ a.Writes k) :
    Swept (step c a).clock (c.store.entry k) ((step c a).store.entry k) := by
  rcases hr : a.removesAt with _ | now
  · rw [step_entry hw hr]
    exact .refl _ _
  · have hclock : (step c a).clock = now := by
      rw [step_clock]
      cases a <;> cases hr <;> rfl
    rw [hclock]
    exact step_removes h hr k

/-- What the map holds for a key: the value of its entry, unless that is expired. -/
def held (c : LockedStore) (key : Key) (now : Time) : Option Value :=
  (alive now (c.store.entry key)).map Entry.value

theorem readLocked_cases (key : Key) (now : Time) :
    (step c (.readLocked key now)).started = c.started + 1 ∧
      (c.held key now = none ∧
          (step c (.readLocked key now)).paused = c.paused ++ [.get c.started key] ∧
          (step c (.readLocked key now)).returned = c.returned ∨
        (step c (.readLocked key now)).paused = c.paused ∧
          (step c (.readLocked key now)).returned =
            c.returned ++ [(c.started, c.held key now)]) := by
  rcases he : (c.store.getShard key).lookup key with _ | entry
  · have he' : c.store.entry key = none := he
    simp [step, readLocked, reply, held, he, he', alive]
  · have he' : c.store.entry key = some entry := he
    by_cases hx : entry.isExpired now = true
    · simp [step, readLocked, held, he, he', hx, alive, Option.filter_some]
    · simp [step, readLocked, reply, held, he, he', hx, alive, Option.filter_some]

theorem started_le_step : c.started ≤ (step c a).started := by
  cases a with
  | readLocked key now =>
    rw [(readLocked_cases key now).1]
    omega
  | sampleAndExpire index pass =>
    obtain ⟨store, hstep⟩ := sampleAndExpire_frame (c := c) index pass
    rw [hstep]
  | _ => exact le_rfl

/-- A `Get` is paused by its read section, if the map holds nothing for its key. -/
theorem mem_paused_step {id : ℕ} {k : Key} (h : .get id k ∈ (step c a).paused) :
    .get id k ∈ c.paused ∨
      ∃ key now, a = .readLocked key now ∧ id = c.started ∧ c.held key now = none := by
  cases a with
  | readLocked key now =>
    rcases (readLocked_cases (c := c) key now).2 with ⟨hnone, hp, -⟩ | ⟨hp, -⟩
    · rw [hp, List.mem_append, List.mem_singleton] at h
      rcases h with h | h
      · exact Or.inl h
      · obtain ⟨hid, -⟩ := Paused.get.inj h
        exact Or.inr ⟨key, now, rfl, hid, hnone⟩
    · rw [hp] at h
      exact Or.inl h
  | writeLocked id' key now => exact Or.inl (List.mem_of_mem_erase h)
  | makeEntry key value ttl now =>
    left
    simpa [step, makeEntry] using h
  | setLocked key entry => exact Or.inl (List.mem_of_mem_erase h)
  | delete key => exact Or.inl h
  | expire key ttl now => exact Or.inl h
  | sampleAndExpire index pass =>
    obtain ⟨store, hstep⟩ := sampleAndExpire_frame (c := c) index pass
    rw [hstep] at h
    exact Or.inl h

/-- A `Get` returns what the map holds in its read section, or nothing in its second one. -/
theorem mem_returned_step {id : ℕ} {value : Option Value} (h : (id, value) ∈ (step c a).returned) :
    (id, value) ∈ c.returned ∨
      (∃ key now, a = .readLocked key now ∧ id = c.started ∧ value = c.held key now) ∨
      ∃ key now, a = .writeLocked id key now ∧ value = none := by
  cases a with
  | readLocked key now =>
    rcases (readLocked_cases (c := c) key now).2 with ⟨-, -, hr⟩ | ⟨-, hr⟩
    · rw [hr] at h
      exact Or.inl h
    · rw [hr, List.mem_append, List.mem_singleton] at h
      rcases h with h | h
      · exact Or.inl h
      · obtain ⟨hid, hvalue⟩ := Prod.mk.inj h
        exact Or.inr (Or.inl ⟨key, now, rfl, hid, hvalue⟩)
  | writeLocked id' key now =>
    have hr : (step c (.writeLocked id' key now)).returned = c.returned ++ [(id', none)] := rfl
    rw [hr, List.mem_append, List.mem_singleton] at h
    rcases h with h | h
    · exact Or.inl h
    · cases h
      exact Or.inr (Or.inr ⟨key, now, rfl, rfl⟩)
  | sampleAndExpire index pass =>
    obtain ⟨store, hstep⟩ := sampleAndExpire_frame (c := c) index pass
    rw [hstep] at h
    exact Or.inl h
  | _ => exact Or.inl h

/-- The `Get`s paused and returned have been started. -/
structure Counted (c : LockedStore) : Prop where
  paused : ∀ id key, .get id key ∈ c.paused → id < c.started
  returned : ∀ id value, (id, value) ∈ c.returned → id < c.started

theorem start_counted (store : Store) (clock : Time) : (start store clock).Counted :=
  ⟨fun _ _ h => absurd h List.not_mem_nil, fun _ _ h => absurd h List.not_mem_nil⟩

theorem Counted.step (h : c.Counted) (ha : Enabled c a) : (step c a).Counted := by
  have hle : c.started ≤ (LockedStore.step c a).started := started_le_step
  constructor
  · intro id k hm
    rcases mem_paused_step hm with hm | ⟨key, now, rfl, rfl, -⟩
    · exact (h.paused id k hm).trans_le hle
    · rw [(readLocked_cases key now).1]
      exact Nat.lt_succ_self _
  · intro id value hm
    rcases mem_returned_step hm with hm | ⟨key, now, rfl, rfl, -⟩ | ⟨key, now, rfl, -⟩
    · exact (h.returned id value hm).trans_le hle
    · rw [(readLocked_cases key now).1]
      exact Nat.lt_succ_self _
    · exact (h.paused id key ha.2).trans_le hle

/-- The `Get` number `id` answers `value`: it has returned that, or it will. -/
structure Answers (id : ℕ) (value : Option Value) (c : LockedStore) : Prop where
  started : id < c.started
  paused : ∀ key, .get id key ∈ c.paused → value = none
  returned : ∀ v, (id, v) ∈ c.returned → v = value

/-- The read section of a `Get` decides its answer. -/
theorem Counted.answers (h : c.Counted) (key : Key) (now : Time) :
    Answers c.started (c.held key now) (LockedStore.step c (.readLocked key now)) := by
  constructor
  · rw [(readLocked_cases key now).1]
    exact Nat.lt_succ_self _
  · intro k hm
    rcases mem_paused_step hm with hm | ⟨key', now', he, -, hnone⟩
    · exact absurd (h.paused _ k hm) (lt_irrefl _)
    · cases he
      exact hnone
  · intro v hm
    rcases mem_returned_step hm with hm | ⟨key', now', he, -, hv⟩ | ⟨key', now', he, -⟩
    · exact absurd (h.returned _ v hm) (lt_irrefl _)
    · cases he
      exact hv
    · cases he

theorem Answers.step {id : ℕ} {value : Option Value} (h : Answers id value c) (ha : Enabled c a) :
    Answers id value (step c a) := by
  constructor
  · exact h.started.trans_le started_le_step
  · intro k hm
    rcases mem_paused_step hm with hm | ⟨key, now, -, rfl, -⟩
    · exact h.paused k hm
    · exact absurd h.started (lt_irrefl _)
  · intro v hm
    rcases mem_returned_step hm with hm | ⟨key, now, -, rfl, -⟩ | ⟨key, now, rfl, hv⟩
    · exact h.returned v hm
    · exact absurd h.started (lt_irrefl _)
    · rw [hv, h.paused key ha.2]

end

/-- Key `[]` has an expired entry; between the two sections of a `Get`, a `Set` writes `[2]` with
    a TTL. -/
def overtaken : List Act :=
  [.readLocked [] 5, .makeEntry [] [2] 100 6, .setLocked [] ⟨[2], some 106⟩, .writeLocked 0 [] 7]

end LockedStore

end DistCache
