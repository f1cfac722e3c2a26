/-
  When a refutation beats the report.

  `refute` raises the incarnation above that of the report, modulo `2^64`, and queues an
  ALIVE update with it, which takes the place of what is queued about the node unless that
  is newer.  A report at the limit `2^64 - 1` sets the incarnation back to 0, and the old
  update stays in the queue.  In a run without such reports nothing recorded or queued about
  the node is ahead of it (`Ahead.step`), and every report is refuted (`refutes_of_run`).
-/
import DistCache.Proof.Refute

namespace DistCache

open Lib

namespace Membership

/-- The queued entry about a node. -/
def queued (m : Membership) (x : NodeID) : Option QueuedUpdate :=
  m.updateQueue.find? fun q => q.update.nodeID = x

theorem queued_eq_none {m : Membership} {x : NodeID} :
    m.queued x = none ↔ ∀ q ∈ m.updateQueue, q.update.nodeID ≠ x := by
  simp [queued]

theorem mem_of_queued {m : Membership} {x : NodeID} {q : QueuedUpdate} (h : m.queued x = some q) :
    q ∈ m.updateQueue ∧ q.update.nodeID = x := by
  refine ⟨List.mem_of_find?_eq_some h, ?_⟩
  simpa using List.find?_some h

/-- An update takes the place of what is queued about its node, unless that is newer. -/
theorem queued_queueUpdate (m : Membership) (u : MembershipUpdate) :
    (m.queueUpdate u).queued u.nodeID =
      match m.queued u.nodeID with
      | none => some ⟨u, 0⟩
      | some q => some (if q.update.incarnation ≤ u.incarnation then ⟨u, 0⟩ else q) := by
  rcases coalesce_cases u m.updateQueue with ⟨hl, heq⟩ | ⟨a, q, b, hl, ha, hq, heq⟩
  · rw [queued_eq_none.2 hl]
    simp only [queued, queueUpdate, heq, List.find?_append]
    rw [List.find?_eq_none.2 (by simpa using hl)]
    simp
  · have hskip : a.find? (fun q => q.update.nodeID = u.nodeID) = none := by
      rw [List.find?_eq_none]
      simpa using ha
    have hold : m.queued u.nodeID = some q := by
      rw [queued, hl, List.find?_append, hskip, Option.none_or]
      exact List.find?_cons_of_pos (decide_eq_true hq)
    rw [hold]
    simp only [queued, queueUpdate, heq, List.find?_append, hskip, Option.none_or]
    refine List.find?_cons_of_pos (decide_eq_true ?_)
    split_ifs
    · rfl
    · exact hq

/-! ## One report -/

section
variable {m : Membership} {u : MembershipUpdate}

/-- Below the limit, the incarnation becomes the least one that is above the report. -/
theorem refute_toNat (hu : u.incarnation.toNat < 2 ^ 64 - 1) :
    (m.refute u).incarnation.toNat = max m.incarnation.toNat (u.incarnation.toNat + 1) := by
  show (if m.incarnation ≤ u.incarnation then u.incarnation + 1 else m.incarnation).toNat = _
  split_ifs with hle
  · have hone : (1 : UInt64).toNat = 1 := rfl
    have hle := UInt64.le_iff_toNat_le.1 hle
    rw [UInt64.toNat_add, hone, Nat.mod_eq_of_lt (by omega), max_eq_right (by omega)]
  · have hlt := UInt64.lt_iff_toNat_lt.1 (UInt64.not_le.1 hle)
    rw [max_eq_left (by omega)]

/-- A report at the limit sets the incarnation back. -/
theorem refute_limit (hu : ¬ u.incarnation.toNat < 2 ^ 64 - 1) : (m.refute u).incarnation = 0 := by
  have hmax : u.incarnation.toNat = 2 ^ 64 - 1 := by
    have := u.incarnation.toNat_lt
    omega
  have hle : m.incarnation ≤ u.incarnation := by
    have := m.incarnation.toNat_lt
    rw [UInt64.le_iff_toNat_le]
    omega
  show (if m.incarnation ≤ u.incarnation then u.incarnation + 1 else m.incarnation) = 0
  rw [if_pos hle]
  refine UInt64.toNat_inj.1 ?_
  rw [UInt64.toNat_add, hmax]
  rfl

end

/-- The report about the node itself is refuted: the incarnation is above that of the report and
    has not gone back, and the queued entry about the node is an ALIVE update with it. -/
def Refutes (m : Membership) (u : MembershipUpdate) : Prop :=
  u.incarnation < (m.applyUpdate u).incarnation ∧
    m.incarnation ≤ (m.applyUpdate u).incarnation ∧
    ∃ q, (m.applyUpdate u).queued m.selfID = some q ∧ q.update.status = .alive ∧
      q.update.incarnation = (m.applyUpdate u).incarnation

section
variable {m : Membership} {u : MembershipUpdate} (hu : m.Refuted u)
include hu

theorem Refuted.queued_applyUpdate : (m.applyUpdate u).queued m.selfID =
    match m.queued m.selfID with
    | none => some ⟨(m.refute u).selfAlive, 0⟩
    | some q => some (if q.update.incarnation ≤ (m.refute u).incarnation then
        ⟨(m.refute u).selfAlive, 0⟩ else q) := by
  rw [hu.applyUpdate]
  exact queued_queueUpdate _ (m.refute u).selfAlive

/-- Below the limit, the refutation fails only to a newer update in the queue. -/
theorem Refuted.refutes (hlimit : u.incarnation.toNat < 2 ^ 64 - 1)
    (hq : ∀ q, m.queued m.selfID = some q →
      q.update.incarnation.toNat ≤ max m.incarnation.toNat (u.incarnation.toNat + 1)) :
    m.Refutes u := by
  have hinc := refute_toNat (m := m) hlimit
  unfold Refutes
  rw [hu.queued_applyUpdate, hu.applyUpdate]
  refine ⟨UInt64.lt_iff_toNat_lt.2 (by omega), UInt64.le_iff_toNat_le.2 (by omega),
    ⟨(m.refute u).selfAlive, 0⟩, ?_, rfl, rfl⟩
  cases hold : m.queued m.selfID with
  | none => rfl
  | some q =>
    have hle : q.update.incarnation ≤ (m.refute u).incarnation := by
      rw [UInt64.le_iff_toNat_le, hinc]
      exact hq q hold
    dsimp only
    rw [if_pos hle]

end

/-- **When a refutation beats the report.**  In every state of a node, a SUSPECT or DEAD report
    about the node itself is refuted if and only if its incarnation is not `2^64 - 1` and nothing
    newer than the refutation is queued about the node. -/
theorem refutes_iff (m : Membership) (u : MembershipUpdate) (hself : u.nodeID = m.selfID)
    (hstatus : u.status = .suspect ∨ u.status = .dead) :
    m.Refutes u ↔ u.incarnation.toNat < 2 ^ 64 - 1 ∧
      ∀ q, m.queued m.selfID = some q →
        q.update.incarnation.toNat ≤ max m.incarnation.toNat (u.incarnation.toNat + 1) := by
  have hu : m.Refuted u := ⟨hself, hstatus⟩
  refine ⟨fun h => ?_, fun h => hu.refutes h.1 h.2⟩
  unfold Refutes at h
  rw [hu.queued_applyUpdate, hu.applyUpdate] at h
  obtain ⟨hlt, -, q', hq', -, hinc⟩ := h
  have hlimit : u.incarnation.toNat < 2 ^ 64 - 1 := by
    by_contra hlimit
    rw [refute_limit hlimit] at hlt
    exact UInt64.not_lt_zero hlt
  refine ⟨hlimit, fun q hq => ?_⟩
  rw [hq] at hq'
  obtain rfl := Option.some.inj hq'
  rw [← refute_toNat hlimit, ← UInt64.le_iff_toNat_le]
  -- a newer entry would stay, with its own incarnation
  by_contra hle
  rw [if_neg hle] at hinc
  exact hle (hinc ▸ UInt64.le_refl _)

/-- A node that has just started refutes a report at incarnation 5. -/
theorem refutes_five :
    (start [1] ⟨[], [], []⟩ none).Refutes (.report [1] .suspect 5) :=
  (refutes_iff _ _ rfl (Or.inl rfl)).2 ⟨by decide, by decide⟩

/-- **Two reports set a node back**: after one at `2^64 - 2` and one at `2^64 - 1`, its
    incarnation is 0, while its old update is still queued. -/
theorem refutes_not_at_limit :
    let m := (start [1] ⟨[], [], []⟩ none).applyUpdate (.report [1] .suspect 18446744073709551614)
    let u := MembershipUpdate.report [1] .dead 18446744073709551615
    m.incarnation = 18446744073709551615 ∧ (m.applyUpdate u).incarnation = 0 ∧
      ((m.applyUpdate u).queued [1]).map (fun q => q.update.incarnation) =
        some 18446744073709551615 ∧
      ¬ m.Refutes u := by
  intro m u
  have hzero : (m.applyUpdate u).incarnation = 0 := by decide
  refine ⟨by decide, hzero, by decide, fun h => ?_⟩
  have hlt := h.1
  rw [hzero] at hlt
  exact UInt64.not_lt_zero hlt

/-! ## Runs -/

/-- The incarnation of the node for itself, and the limit for the others. -/
def ownBound (m : Membership) : NodeID → UInt64 :=
  Function.update (fun _ => 18446744073709551615) m.selfID m.incarnation

theorem within_ownBound_of_ne {m : Membership} {u : MembershipUpdate} (hu : u.nodeID ≠ m.selfID) :
    u.Within m.ownBound := by
  rw [MembershipUpdate.Within, ownBound, Function.update_of_ne hu, UInt64.le_iff_toNat_le]
  exact Nat.le_of_lt_succ u.incarnation.toNat_lt

/-- Nothing recorded or queued about the node is ahead of its incarnation. -/
def Ahead (m : Membership) : Prop := m.Within m.ownBound

theorem Ahead.refute {m : Membership} (h : m.Ahead) {u : MembershipUpdate}
    (hlimit : u.incarnation.toNat < 2 ^ 64 - 1) : (m.refute u).Ahead := by
  have hinc := refute_toNat (m := m) hlimit
  have hB : (m.refute u).ownBound = Function.update (fun _ => 18446744073709551615) m.selfID
    (m.refute u).incarnation := rfl
  refine Within.refute h (fun x => ?_) (Function.update_self ..)
  rw [hB, ownBound]
  by_cases hx : x = m.selfID
  · rw [hx, Function.update_self, Function.update_self, UInt64.le_iff_toNat_le]
    omega
  · rw [Function.update_of_ne hx, Function.update_of_ne hx]
    exact UInt64.le_refl _

theorem Ahead.refutes {m : Membership} (h : m.Ahead) {u : MembershipUpdate} (hu : m.Refuted u)
    (hlimit : u.incarnation.toNat < 2 ^ 64 - 1) : m.Refutes u := by
  refine hu.refutes hlimit fun q hq => le_max_of_le_left ?_
  obtain ⟨hmem, hid⟩ := mem_of_queued hq
  have hle := h.queue q hmem
  rw [MembershipUpdate.Within, hid, ownBound, Function.update_self] at hle
  exact UInt64.le_iff_toNat_le.1 hle

end Membership

namespace Swim

/-- No report about the node itself is applied at the limit. -/
def Below (s : Swim) (a : Act) : Prop :=
  ∀ update rest msg remote, a = .apply → s.recv = .applying (update :: rest) msg remote →
    s.m.Refuted update → update.incarnation.toNat < 2 ^ 64 - 1

section
variable (resolve : GoString → Option UDPAddr)

/-- A transition of a node that is ahead of all reports. -/
theorem Ahead.step {s : Swim} {a : Act} (hpeers : s.Peers) (h : s.m.Ahead) (ha : Below s a) :
    (s.step resolve a).m.Ahead := by
  cases hr : World.refutation s a with
  | none =>
    have hrest := fun update rest msg remote
      (_ : s.recv = .applying (update :: rest) msg remote) =>
        Membership.within_ownBound_of_ne (m := s.m) (u := update)
    have hpending := fun todo u (hu : s.recv.pending = some (todo, u)) =>
      Membership.within_ownBound_of_ne (hpeers.pending todo u hu).1
    obtain ⟨hm, hi⟩ := step_within resolve h hrest hpending hr
    unfold Membership.Ahead Membership.ownBound
    rw [hi, step_selfID]
    exact hm
  | some u =>
    obtain ⟨update, rest, msg, remote, rfl, hrecv, hu, -⟩ := refutation_eq_some hr
    rw [step_m_of_refuted resolve hrecv hu]
    exact h.refute (ha update rest msg remote rfl hrecv hu)

/-- **Every report is refuted** in a run of a node in which none is at the limit. -/
theorem refutes_of_run (selfID : NodeID) (addrs : Addrs) (injector : Option FaultInjector)
    {as : List Act} (has : Along (step resolve) Below (start selfID addrs injector) as)
    {u : MembershipUpdate} (hlimit : u.incarnation.toNat < 2 ^ 64 - 1)
    (hu : (run (step resolve) (start selfID addrs injector) as).m.Refuted u) :
    (run (step resolve) (start selfID addrs injector) as).m.Refutes u := by
  have hahead := has.inv (I := fun s : Swim => s.Peers ∧ s.m.Ahead)
    (fun s a hs ha => ⟨hs.1.step resolve a, Ahead.step resolve hs.1 hs.2 ha⟩)
    ⟨start_peers selfID addrs injector, Membership.start_within ..⟩
  exact Membership.Ahead.refutes hahead.2 hu hlimit

end

end Swim

end DistCache
