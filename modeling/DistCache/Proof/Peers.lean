/-
  Events, timers and probes are about other nodes.

  The gossip path refutes reports about the node itself, and the ping loop picks its
  targets among the other nodes; so no timer is ever armed for the node, and no event is
  about it (`Peers`, `run_peers`).
-/
import DistCache.Proof.Gossip
import DistCache.Proof.Swim

namespace DistCache

open Lib

/-! ## The target of the ping loop -/

/-- The node that is being probed. -/
def Ping.target : Ping → Option NodeID
  | .direct targetID _ | .probing targetID | .indirect targetID _ | .suspecting targetID
  | .marking targetID => some targetID
  | .idle | .exited => none

namespace Swim

/-- The transitions of the ping loop. -/
def Act.ofPingLoop : Act → Bool
  | .tick .. | .pingReqs .. | .pingAck | .pingTimeout | .pingStop | .suspect | .mark => true
  | _ => false

section
variable (resolve : GoString → Option UDPAddr) (s : Swim)

theorem dispatch_ping (ord : RangeOrder NodeID NodeInfo) :
    (s.dispatch resolve ord).ping = s.ping := by
  unfold dispatch
  split
  · split
    · rfl
    · rfl
    · unfold handlePingReq
      split
      · rfl
      · split <;> rfl
    · rfl
    · rfl
  · rfl

/-- The transitions of the receive loop, of the timers and of `main` leave the ping loop
    alone. -/
theorem step_ping {a : Act} (ha : a.ofPingLoop = false) : (s.step resolve a).ping = s.ping := by
  cases a with
  | arrive | fire | inject | joinCluster | leave | stop => rfl
  | dispatch ord => exact dispatch_ping resolve s ord
  | read =>
    simp only [step, read]
    split
    · split_ifs <;> rfl
    · rfl
  | apply =>
    simp only [step, apply]
    split <;> rfl
  | resume =>
    simp only [step, resume]
    split
    · split_ifs <;> rfl
    · rfl
  | recvAck =>
    simp only [step, recvAck]
    split
    · split_ifs <;> rfl
    · rfl
  | recvTimeout =>
    simp only [step, recvTimeout]
    split <;> rfl
  | recvStop =>
    simp only [step, recvStop]
    split_ifs
    · split <;> rfl
    · rfl
  | callback x =>
    simp only [step, callback]
    split_ifs <;> rfl
  | halt ord =>
    simp only [step, halt]
    split_ifs <;> rfl
  | tick | pingReqs | pingAck | pingTimeout | pingStop | suspect | mark => cases ha

/-- Only another node becomes the target of the ping loop. -/
theorem step_target (a : Act) {x : NodeID} (h : (s.step resolve a).ping.target = some x) :
    s.ping.target = some x ∨ x ≠ s.m.selfID := by
  cases hloop : a.ofPingLoop with
  | false =>
    rw [step_ping resolve s hloop] at h
    exact Or.inl h
  | true =>
    cases a with
    | tick ord i =>
      simp only [step, tick] at h
      split at h
      · rename_i target hping htarget
        -- the candidates are other nodes
        have hmem := List.mem_of_getElem? htarget
        have hne : target.id ≠ s.m.selfID := (of_decide_eq_true (List.mem_filter.1 hmem).2).1
        right
        split at h
        · exact Option.some.inj h ▸ hne
        · exact Option.some.inj h ▸ hne
      · exact Or.inl h
    | pingReqs ord shuffle =>
      simp only [step, pingReqs] at h
      split at h
      · rename_i targetID hping
        rw [hping]
        split at h <;> exact Or.inl h
      · exact Or.inl h
    | pingAck =>
      -- a probe that succeeds has no target any more
      simp only [step, pingAck] at h
      split at h
      · split_ifs at h
        · cases h
        · exact Or.inl h
      · split_ifs at h
        · cases h
        · exact Or.inl h
      · exact Or.inl h
    | pingTimeout =>
      simp only [step, pingTimeout] at h
      split at h
      · rename_i hping
        rw [hping]
        exact Or.inl h
      · rename_i hping
        rw [hping]
        exact Or.inl h
      · exact Or.inl h
    | pingStop =>
      simp only [step, pingStop] at h
      split_ifs at h
      · split at h
        · rename_i hping
          rw [hping]
          exact Or.inl h
        · rename_i hping
          rw [hping]
          exact Or.inl h
        · cases h
        · exact Or.inl h
      · exact Or.inl h
    | suspect =>
      simp only [step, suspect] at h
      split at h
      · rename_i hping
        rw [hping]
        split_ifs at h
        · exact Or.inl h
        · cases h
      · exact Or.inl h
    | mark =>
      simp only [step, mark] at h
      split at h
      · cases h
      · exact Or.inl h
    | _ => cases hloop

end

end Swim

theorem Membership.lookup_armed_stopTimers {m : Membership} {ord : RangeOrder NodeID ℕ} {t : ℕ}
    {x : NodeID} (h : (m.stopTimers ord).armed.lookup t = some x) : m.armed.lookup t = some x := by
  unfold stopTimers at h
  generalize ord.list m.suspicionTimers = l at h
  induction l generalizing m with
  | nil => exact h
  | cons e l ih => exact lookup_armed_stopTimer (ih h)

/-- The node's own record becomes Left. -/
theorem Membership.view_leave (m : Membership) (y : NodeID) :
    m.leave.view y = if y = m.selfID then (m.view y).map fun r => (.left, r.2) else m.view y := by
  unfold leave view
  dsimp only [queueUpdate]
  by_cases hy : y = m.selfID
  · rw [if_pos hy, hy]
    split
    · rename_i hl
      rw [hl]
      rfl
    · rename_i info hl
      rw [hl, Finmap.lookup_insert]
      rfl
  · rw [if_neg hy]
    split
    · rfl
    · rw [Finmap.lookup_insert_of_ne _ hy]

/-! ## The records of a node -/

namespace Swim

section
variable (resolve : GoString → Option UDPAddr) (s : Swim) (x : NodeID)

/-- What a transition does to the record of `x`. -/
inductive Sees : Act → Record → Prop
  | same (a : Act) : Sees a (s.m.view x)
  | begin {u : MembershipUpdate} {rest : List MembershipUpdate} {msg : SwimMessage}
      {remote : UDPAddr} : s.recv = .applying (u :: rest) msg remote → u.nodeID = x →
      Sees .apply ((s.m.view x).begin u.status u.incarnation)
  | resume {todo : Membership.Todo} {u : MembershipUpdate} {rest : List MembershipUpdate}
      {msg : SwimMessage} {remote : UDPAddr} : s.recv = .updating todo u rest msg remote →
      u.nodeID = x → Sees .resume ((s.m.view x).resume todo u.incarnation)
  | mark : s.ping = .marking x → Sees .mark ((s.m.view x).map fun r => (.suspect, r.2))
  | kill : Sees (.callback x) (s.m.view x).kill
  | leave : Sees .leave ((s.m.view x).map fun r => (.left, r.2))

theorem view_step (a : Act) : Sees s x a ((s.step resolve a).m.view x) := by
  have heff := step_effect resolve s a
  generalize s.step resolve a = s' at heff ⊢
  cases heff with
  | @apply u rest msg remote hrecv =>
    show Sees s x .apply ((s.m.beginUpdate u).1.view x)
    rw [Membership.view_beginUpdate]
    split_ifs with hx
    · exact .begin hrecv hx.1.symm
    · exact .same _
  | @resume todo u rest msg remote hrecv hlock =>
    show Sees s x .resume ((s.m.resumeUpdate u todo).1.view x)
    rw [Membership.view_resumeUpdate]
    split_ifs with hx
    · exact .resume hrecv hx.symm
    · exact .same _
  | @ack ord msg =>
    obtain ⟨_, _, he⟩ := s.m.handleAck_eq msg
    have hview : (s.m.handleAck msg).view x = s.m.view x := by rw [he]; rfl
    show Sees s x _ ((s.m.handleAck msg).view x)
    rw [hview]
    exact .same _
  | @mark y hping =>
    show Sees s x .mark ((s.m.setSuspect y).view x)
    rw [Membership.view_setSuspect]
    split_ifs with hx
    · exact .mark (hx ▸ hping)
    · exact .same _
  | fire t =>
    obtain ⟨_, _, he⟩ := s.m.fire_eq t
    have hview : (s.m.fire t).view x = s.m.view x := by rw [he]; rfl
    show Sees s x _ ((s.m.fire t).view x)
    rw [hview]
    exact .same _
  | callback y =>
    show Sees s x (.callback y) ((s.m.callback y).view x)
    unfold Membership.callback
    split_ifs
    · rw [Membership.view_markDead]
      split_ifs with hx
      · subst hx
        exact .kill
      · exact .same _
    · exact .same _
  | leave =>
    show Sees s x .leave (s.m.leave.view x)
    rw [Membership.view_leave]
    split_ifs
    · exact .leave
    · exact .same _
  | halt ord =>
    obtain ⟨_, he⟩ := s.m.stopTimers_eq ord
    have hview : (s.m.stopTimers ord).view x = s.m.view x := by rw [he]; rfl
    show Sees s x _ ((s.m.stopTimers ord).view x)
    rw [hview]
    exact .same _
  | _ => exact .same _

end

/-- A node that is known stays known. -/
theorem step_known (resolve : GoString → Option UDPAddr) (s : Swim) (a : Act) {x : NodeID}
    (hx : s.m.view x ≠ none) : (s.step resolve a).m.view x ≠ none := by
  have hsees := view_step resolve s x a
  generalize (s.step resolve a).m.view x = r at hsees ⊢
  obtain ⟨⟨st, j⟩, hv⟩ := Option.ne_none_iff_exists'.1 hx
  cases hsees with
  | same => exact hx
  | @begin u rest msg remote =>
    rw [hv]
    unfold Record.begin
    dsimp only
    split_ifs
    · simp
    · cases u.status <;> simp
  | @resume todo u =>
    rw [hv]
    cases todo <;> simp [Record.resume]
  | mark => simp [hv]
  | kill => simp [hv, Record.kill]
  | leave => simp [hv]

end Swim

/-! ## The invariant -/

/-- The update that is being applied, with what is left of `applyUpdate`. -/
def Recv.pending : Recv → Option (Membership.Todo × MembershipUpdate)
  | .updating todo update _ _ _ => some (todo, update)
  | _ => none

theorem Recv.pending_after {update u : MembershipUpdate} {rest : List MembershipUpdate}
    {msg : SwimMessage} {remote : UDPAddr} {r : Option Membership.Todo} {todo : Membership.Todo} :
    (Recv.after update rest msg remote r).pending = some (todo, u) ↔ r = some todo ∧ u = update := by
  cases r with
  | none => simp [after, pending]
  | some todo' =>
    simp only [after, pending, Option.some.injEq, Prod.mk.injEq]
    exact and_congr Iff.rfl ⟨Eq.symm, Eq.symm⟩

theorem Recv.mem_updates {recv : Recv} {todo : Membership.Todo} {u : MembershipUpdate}
    (h : recv.pending = some (todo, u)) : u ∈ recv.updates := by
  cases recv with
  | updating =>
    cases h
    exact List.mem_cons_self
  | _ => cases h

/-- The status of `x` is Alive again, and its timer is yet to be cancelled. -/
def Recv.revives (x : NodeID) : Recv → Bool
  | .updating .stamp update _ _ _ | .updating .cancel update _ _ _ => update.nodeID = x
  | _ => false

/-- `x` is Alive or Suspect. -/
def Up (m : Membership) (x : NodeID) : Prop :=
  ∃ s j, m.view x = some (s, j) ∧ (s = .alive ∨ s = .suspect)

namespace Membership

/-- The events are about known peers, and so are the timers and the callbacks. -/
structure Peers (m : Membership) : Prop where
  event : ∀ ev ∈ m.emitted, ev.nodeID ≠ m.selfID
  known : ∀ ev ∈ m.emitted, m.view ev.nodeID ≠ none
  status : ∀ x st j, m.view x = some (st, j) → st = .alive ∨ st.IsDown
  armed : ∀ t x, m.armed.lookup t = some x → x ≠ m.selfID
  fired : ∀ x ∈ m.fired, x ≠ m.selfID

/-- `m'` is `m` but for the record, the events and the timers of `x`. -/
structure Touches (m m' : Membership) (x : NodeID) : Prop where
  selfID : m'.selfID = m.selfID
  view : ∀ y ≠ x, m'.view y = m.view y
  record : ∃ st j, m'.view x = some (st, j) ∧ (st = .alive ∨ st.IsDown)
  emitted : ∀ ev ∈ m'.emitted, ev ∈ m.emitted ∨ ev.nodeID = x
  armed : ∀ t y, m'.armed.lookup t = some y → m.armed.lookup t = some y ∨ y = x
  fired : ∀ y ∈ m'.fired, y ∈ m.fired

theorem Peers.touches {m m' : Membership} {x : NodeID} (h : m.Peers) (ht : m.Touches m' x)
    (hx : x ≠ m.selfID) : m'.Peers := by
  obtain ⟨st, j, hrec, hst⟩ := ht.record
  refine ⟨fun ev hev => ?_, fun ev hev => ?_, fun y st' j' hy => ?_, fun t y hy => ?_,
    fun y hy => ?_⟩
  · rw [ht.selfID]
    rcases ht.emitted ev hev with hev | rfl
    · exact h.event ev hev
    · exact hx
  · by_cases hy : ev.nodeID = x
    · rw [hy, hrec]
      simp
    · rw [ht.view _ hy]
      exact h.known ev ((ht.emitted ev hev).resolve_right hy)
  · by_cases hyx : y = x
    · rw [hyx, hrec] at hy
      cases hy
      exact hst
    · rw [ht.view y hyx] at hy
      exact h.status y st' j' hy
  · rw [ht.selfID]
    rcases ht.armed t y hy with hy | rfl
    · exact h.armed t y hy
    · exact hx
  · rw [ht.selfID]
    exact h.fired y (ht.fired y hy)

section
variable {m m' : Membership} {x : NodeID}

/-- The record of `x` is written, and the timers stay. -/
theorem touches_setInfo {info : NodeInfo} (hst : info.status = .alive ∨ info.status.IsDown) :
    m.Touches (m.setInfo x info) x where
  selfID := rfl
  view y hy := by rw [view_setInfo, if_neg hy]
  record := ⟨info.status, info.incarnation, by rw [view_setInfo, if_pos rfl], hst⟩
  emitted _ := Or.inl
  armed _ _ := Or.inl
  fired _ := id

/-- The record of `x` stays. -/
theorem touches_same {st : NodeStatus} {j : UInt64} (hv : m.view x = some (st, j))
    (hst : st = .alive ∨ st.IsDown) : m.Touches m x :=
  ⟨rfl, fun _ _ => rfl, ⟨st, j, hv, hst⟩, fun _ => Or.inl, fun _ _ => Or.inl, fun _ => id⟩

variable (h : m.Touches m' x)
include h

theorem Touches.emitEvent (type : MembershipEventType) : m.Touches (m'.emitEvent type x) x where
  selfID := h.selfID
  view := h.view
  record := h.record
  emitted ev hev := by
    rcases List.mem_append.1 hev with hev | hev
    · exact h.emitted ev hev
    · rw [List.mem_singleton.1 hev]
      exact Or.inr rfl
  armed := h.armed
  fired := h.fired

theorem Touches.queueUpdate (u : MembershipUpdate) : m.Touches (m'.queueUpdate u) x :=
  ⟨h.selfID, h.view, h.record, h.emitted, h.armed, h.fired⟩

theorem Touches.cancelTimer : m.Touches (m'.cancelTimer x) x :=
  ⟨h.selfID, h.view, h.record, h.emitted, fun t y hy => h.armed t y (lookup_armed_stopTimer hy),
    h.fired⟩

theorem Touches.restartTimer : m.Touches ((m'.stopTimer x).startTimer x) x where
  selfID := h.selfID
  view := h.view
  record := h.record
  emitted := h.emitted
  armed t y hy := by
    rcases lookup_armed_restart hy with ⟨-, hy⟩ | ⟨-, hy⟩
    · exact Or.inr hy
    · exact h.armed t y hy
  fired := h.fired

end

section
variable {m : Membership} (h : m.Peers)
include h

theorem Peers.beginUpdate (u : MembershipUpdate) : (m.beginUpdate u).1.Peers := by
  have hb := beginUpdate_begins m u
  generalize m.beginUpdate u = r at hb ⊢
  cases hb with
  | refute => exact ⟨h.event, h.known, h.status, h.armed, h.fired⟩
  | join hself => exact h.touches (touches_setInfo (Or.inl rfl)) hself
  | alive hself => exact h.touches (touches_setInfo (Or.inl rfl)) hself
  | left hself => exact h.touches (touches_setInfo (Or.inr (Or.inr (Or.inr rfl)))) hself
  | same | suspect | dead => exact h

/-- The update that is being applied is about a peer. -/
theorem Peers.resumeUpdate {u : MembershipUpdate} (hu : u.nodeID ≠ m.selfID) (todo : Todo) :
    (m.resumeUpdate u todo).1.Peers := by
  have hr := resumeUpdate_resumes m u todo
  generalize m.resumeUpdate u todo = r at hr ⊢
  have hsame : ∀ {info : NodeInfo}, m.registry.lookup u.nodeID = some info →
      m.Touches m u.nodeID := fun hl =>
    touches_same (m.view_eq_some _ hl) (h.status _ _ _ (m.view_eq_some _ hl))
  cases hr with
  | gone => exact h
  | join hl => exact h.touches ((hsame hl).emitEvent _) hu
  | queue => exact ⟨h.event, h.known, h.status, h.armed, h.fired⟩
  | stamp hl =>
    have hst := h.status _ _ _ (m.view_eq_some _ hl)
    exact h.touches (touches_setInfo hst) hu
  | cancel hl => exact h.touches (hsame hl).cancelTimer hu
  | suspect hl =>
    exact h.touches ((touches_setInfo (Or.inr (Or.inl rfl))).restartTimer.emitEvent _) hu
  | bury hl => exact h.touches (touches_setInfo (Or.inr (Or.inr (Or.inl rfl)))).cancelTimer hu
  | emit type hl => exact h.touches ((hsame hl).emitEvent type) hu

theorem Peers.setSuspect {x : NodeID} (hx : x ≠ m.selfID) : (m.setSuspect x).Peers := by
  rcases m.setSuspect_cases x with ⟨he, -⟩ | ⟨info, hl, he⟩
  · rwa [he]
  · rw [he]
    exact h.touches (((touches_setInfo (Or.inr (Or.inl rfl))).queueUpdate _).emitEvent
      _).restartTimer hx

theorem Peers.fire (t : ℕ) : (m.fire t).Peers := by
  unfold Membership.fire
  cases hl : m.armed.lookup t with
  | none => exact h
  | some x =>
    refine ⟨h.event, h.known, h.status, fun t' y hy => ?_, fun y hy => ?_⟩
    · exact h.armed t' y (GoMap.of_lookup_erase hy).2
    · rcases List.mem_append.1 hy with hy | hy
      · exact h.fired y hy
      · rw [List.mem_singleton.1 hy]
        exact h.armed t x hl

theorem Peers.callback (x : NodeID) : (m.callback x).Peers := by
  unfold Membership.callback
  split_ifs with hx
  · have hpop : Peers { m with fired := m.fired.erase x } :=
      ⟨h.event, h.known, h.status, h.armed, fun y hy => h.fired y (List.mem_of_mem_erase hy)⟩
    rcases markDead_cases { m with fired := m.fired.erase x } x with ⟨he, -⟩ | ⟨info, -, -, he⟩
    · rwa [he]
    · rw [he]
      exact hpop.touches (((touches_setInfo (Or.inr (Or.inr (Or.inl rfl)))).cancelTimer.queueUpdate
        _).emitEvent _) (h.fired x hx)
  · exact h

theorem Peers.leave : m.leave.Peers := by
  have hview : ∀ y ≠ m.selfID, m.leave.view y = m.view y := fun y hy => by
    rw [m.view_leave, if_neg hy]
  refine ⟨h.event, fun ev hev => ?_, fun y st j hy => ?_, h.armed, h.fired⟩
  · rw [hview _ (h.event ev hev)]
    exact h.known ev hev
  · by_cases hself : y = m.selfID
    · rw [m.view_leave, if_pos hself] at hy
      obtain ⟨r, -, hr⟩ := Option.map_eq_some_iff.1 hy
      rw [← (Prod.mk.inj hr).1]
      exact Or.inr (Or.inr (Or.inr rfl))
    · rw [hview y hself] at hy
      exact h.status y st j hy

end

theorem start_peers (selfID : NodeID) (addrs : Addrs) (inj : Option FaultInjector) :
    (start selfID addrs inj).Peers := by
  refine ⟨fun ev hev => absurd hev List.not_mem_nil, fun ev hev => absurd hev List.not_mem_nil,
    fun x s j hv => ?_, fun t x hx => ?_, fun x hx => absurd hx List.not_mem_nil⟩
  · rw [view_start] at hv
    split_ifs at hv
    cases hv
    exact Or.inl rfl
  · simp [start, Membership.queueUpdate, setInfo, Finmap.lookup_empty] at hx

end Membership

namespace Swim

/-- Both loops work on other nodes. -/
structure Peers (s : Swim) : Prop where
  m : s.m.Peers
  target : ∀ x, s.ping.target = some x → x ≠ s.m.selfID
  pending : ∀ todo u, s.recv.pending = some (todo, u) →
    u.nodeID ≠ s.m.selfID ∧ s.m.view u.nodeID ≠ none

section
variable (resolve : GoString → Option UDPAddr)

/-- The update that is being applied was so before, or is begun. -/
theorem step_pending (s : Swim) (a : Act) {todo : Membership.Todo} {u : MembershipUpdate}
    (h : (s.step resolve a).recv.pending = some (todo, u)) :
    (∃ todo', s.recv.pending = some (todo', u)) ∨
      ∃ rest msg remote, s.recv = .applying (u :: rest) msg remote ∧
        (s.m.beginUpdate u).2 = some todo ∧ a = .apply := by
  have heff := step_effect resolve s a
  generalize s.step resolve a = s' at heff h
  cases heff with
  | @apply update rest msg remote hrecv =>
    obtain ⟨htodo, rfl⟩ := Recv.pending_after.1 h
    exact Or.inr ⟨rest, msg, remote, hrecv, htodo, rfl⟩
  | @resume todo' update rest msg remote hrecv =>
    obtain ⟨-, rfl⟩ := Recv.pending_after.1 h
    exact Or.inl ⟨todo', by rw [hrecv]; rfl⟩
  | read | ping | ack | pingReq | join | ignore | relay | recvTimeout => cases h
  | recvStop _ hr => rcases hr with rfl | rfl <;> cases h
  | _ => exact Or.inl ⟨todo, h⟩

/-- An update that goes on is about a peer that is known. -/
theorem begin_peer {m : Membership} {u : MembershipUpdate} {todo : Membership.Todo}
    (h : (m.beginUpdate u).2 = some todo) :
    u.nodeID ≠ m.selfID ∧ (m.beginUpdate u).1.view u.nodeID ≠ none := by
  have hb := m.beginUpdate_begins u
  generalize m.beginUpdate u = r at hb h
  cases hb with
  | same | refute => cases h
  | join hself | alive hself | left hself => exact ⟨hself, by simp [Membership.view_setInfo]⟩
  | suspect hself hl | dead hself hl => exact ⟨hself, by simp [m.view_eq_some _ hl]⟩

theorem Peers.step {s : Swim} (h : s.Peers) (a : Act) : (s.step resolve a).Peers := by
  refine ⟨?_, fun x hx => ?_, fun todo u hu => ?_⟩
  · have heff := step_effect resolve s a
    generalize s.step resolve a = s' at heff ⊢
    obtain ⟨h₁, h₂, h₃, h₄, h₅⟩ := h.m
    cases heff with
    | apply => exact h.m.beginUpdate _
    | resume hrecv => exact h.m.resumeUpdate (h.pending _ _ (by rw [hrecv]; rfl)).1 _
    | @ack _ msg =>
      obtain ⟨_, _, he⟩ := s.m.handleAck_eq msg
      dsimp only
      rw [he]
      exact ⟨h₁, h₂, h₃, h₄, h₅⟩
    | mark hping => exact h.m.setSuspect (h.target _ (by rw [hping]; rfl))
    | fire t => exact h.m.fire t
    | callback x => exact h.m.callback x
    | leave => exact h.m.leave
    | halt ord =>
      have harmed : ∀ t x, (s.m.stopTimers ord).armed.lookup t = some x → x ≠ s.m.selfID :=
        fun t x ht => h₄ t x (Membership.lookup_armed_stopTimers ht)
      obtain ⟨armed, he⟩ := s.m.stopTimers_eq ord
      dsimp only
      rw [he] at harmed ⊢
      exact ⟨h₁, h₂, h₃, harmed, h₅⟩
    | _ => exact ⟨h₁, h₂, h₃, h₄, h₅⟩
  · rw [step_selfID]
    exact (step_target resolve s a hx).elim (h.target x) id
  · rw [step_selfID]
    rcases step_pending resolve s a hu with ⟨todo', hu⟩ | ⟨rest, msg, remote, hrecv, htodo, rfl⟩
    · obtain ⟨hself, hknown⟩ := h.pending todo' u hu
      exact ⟨hself, step_known resolve s a hknown⟩
    · have happly : (s.step resolve .apply).m = (s.m.beginUpdate u).1 := by
        simp [Swim.step, apply, hrecv]
      rw [happly]
      exact begin_peer htodo

theorem start_peers (selfID : NodeID) (addrs : Addrs) (injector : Option FaultInjector) :
    (start selfID addrs injector).Peers where
  m := Membership.start_peers selfID addrs injector
  target x hx := by cases hx
  pending todo u hu := by cases hu

theorem run_peers (selfID : NodeID) (addrs : Addrs) (injector : Option FaultInjector)
    (acts : List Act) : (run (step resolve) (start selfID addrs injector) acts).Peers :=
  run_inv (I := Peers) (fun _ a h => h.step resolve a) (start_peers selfID addrs injector) acts

end

end Swim

end DistCache
