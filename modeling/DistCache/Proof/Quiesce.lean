/-
  The ring, the registry and the connections at quiescence.

  Every emitted event says whether its node belongs to the ring, and the last one
  says so truly (`EventInv`), provided that neither a timer nor a second update comes
  between the write of a status and its event.  The callbacks make the ring follow the
  last *handled* event about each node, and the connections follow the ring
  (`RingInv`), provided that no two callbacks about one node overlap.  So all agree
  exactly if, for each peer, the last event handled says the same as the last event
  emitted.
-/
import DistCache.Proof.Node
import DistCache.Proof.Scan

namespace DistCache

open Lib

/-! ## Events -/

/-- What an event does to the ring: the node is added, removed, or left alone. -/
def MembershipEventType.change : MembershipEventType → Option Bool
  | .join | .alive => some true
  | .dead | .left => some false
  | .suspect => none

/-- What the last event about `x` that changes the ring does to it. -/
def lastChange (x : NodeID) (events : List MembershipEvent) : Option Bool :=
  (events.filterMap fun ev => if ev.nodeID = x then ev.type.change else none).getLast?

theorem lastChange_append (x : NodeID) (l l' : List MembershipEvent) :
    lastChange x (l ++ l') = (lastChange x l').or (lastChange x l) := by
  unfold lastChange
  rw [List.filterMap_append, List.getLast?_append]

theorem lastChange_singleton (x : NodeID) (ev : MembershipEvent) :
    lastChange x [ev] = if ev.nodeID = x then ev.type.change else none := by
  unfold lastChange
  split_ifs with h
  · cases hc : ev.type.change <;> simp [h, hc]
  · simp [h]

theorem lastChange_perm {x : NodeID} {l l' : List MembershipEvent} (h : l.Perm l') :
    lastChange x l = none ↔ lastChange x l' = none := by
  unfold lastChange
  rw [List.getLast?_eq_none_iff, List.getLast?_eq_none_iff]
  have hp := h.filterMap fun ev => if ev.nodeID = x then ev.type.change else none
  constructor
  · intro he; rw [he] at hp; exact hp.nil_eq.symm
  · intro he; rw [he] at hp; exact hp.eq_nil

/-- The update that is begun next. -/
def Recv.next : Recv → Option MembershipUpdate
  | .applying (u :: _) _ _ => some u
  | _ => none

/-- The event that `applyUpdate` is still to emit for a status that it has written. -/
def Recv.due (recv : Recv) : List MembershipEvent :=
  match recv.pending with
  | some (.join, u) => [⟨.join, u.nodeID⟩]
  | some (.stamp, u) | some (.cancel, u) => [⟨.alive, u.nodeID⟩]
  | some (.emit type, u) => [⟨type, u.nodeID⟩]
  | some (.queue, _) | some (.suspect, _) | some (.bury, _) | none => []

namespace Swim

/-- The events emitted, and the one that is due. -/
def events (s : Swim) : List MembershipEvent := s.m.emitted ++ s.recv.due

/-- Nothing comes between the write of a status and its event: no callback of a timer runs in the
    middle of an update about its node, and no LEFT update begins in the middle of
    `markSuspect`. -/
def Serial (s : Swim) : Act → Prop
  | .callback x => s.recv.pending.map (·.2.nodeID) ≠ some x
  | .apply => ∀ u ∈ s.recv.next, u.status = .left → s.ping ≠ .marking u.nodeID
  | _ => True

instance (s : Swim) : ∀ a, Decidable (s.Serial a)
  | .callback x => inferInstanceAs (Decidable (s.recv.pending.map (·.2.nodeID) ≠ some x))
  | .apply => inferInstanceAs
      (Decidable (∀ u ∈ s.recv.next, u.status = .left → s.ping ≠ .marking u.nodeID))
  | .arrive _ | .read | .resume | .dispatch _ | .recvAck | .recvTimeout | .recvStop | .tick _ _
  | .pingReqs _ _ | .pingAck | .pingTimeout | .pingStop | .suspect | .mark | .fire _ | .inject _
  | .joinCluster _ | .leave | .stop | .halt _ => inferInstanceAs (Decidable True)

/-- The last event about each peer tells whether it is up; and a node that is about to be marked
    Suspect is up. -/
structure EventInv (s : Swim) : Prop where
  up : ∀ x ≠ s.m.selfID, Up s.m x ↔ lastChange x s.events = some true
  suspect : ∀ u, s.recv.pending = some (.suspect, u) → Up s.m u.nodeID
  marking : ∀ x, s.ping = .marking x → Up s.m x

theorem up_iff {m : Membership} {x : NodeID} {st : NodeStatus} {j : UInt64}
    (h : m.view x = some (st, j)) : Up m x ↔ st = .alive ∨ st = .suspect := by
  constructor
  · rintro ⟨st', j', h', hst⟩
    rw [h] at h'
    cases h'
    exact hst
  · exact fun hst => ⟨st, j, h, hst⟩

theorem up_congr {m m' : Membership} {x : NodeID} (h : m'.view x = m.view x) :
    Up m' x ↔ Up m x := by
  unfold Up
  rw [h]

theorem lastChange_due {recv : Recv} {x : NodeID} (h : recv.pending.map (·.2.nodeID) ≠ some x) :
    lastChange x recv.due = none := by
  unfold Recv.due
  split <;> rename_i hp
  all_goals first
    | rfl
    | rw [hp] at h
      rw [lastChange_singleton, if_neg fun he => h (congrArg some he)]

section
variable {s s' : Swim} (h : s.EventInv) (hself : s'.m.selfID = s.m.selfID)
include h hself

/-- A transition that changes neither the events nor which peers are up. -/
theorem EventInv.congr (hpeers : s.Peers) (hup : ∀ y ≠ s.m.selfID, Up s'.m y ↔ Up s.m y)
    (hev : s'.events = s.events)
    (hsuspect : ∀ u, s'.recv.pending = some (.suspect, u) → s.recv.pending = some (.suspect, u))
    (hmarking : ∀ y, s'.ping = .marking y → s.ping = .marking y) : s'.EventInv := by
  refine ⟨fun y hy => ?_, fun u hu => ?_, fun y hy => ?_⟩
  · rw [hself] at hy
    rw [hup y hy, hev]
    exact h.up y hy
  · have hu := hsuspect u hu
    exact (hup _ (hpeers.pending _ u hu).1).2 (h.suspect u hu)
  · have hy := hmarking y hy
    exact (hup y (hpeers.target y (by rw [hy]; rfl))).2 (h.marking y hy)

/-- A transition that writes the record of `x`, with an event that is emitted or due. -/
theorem EventInv.emit (type : MembershipEventType) {x : NodeID} {st : NodeStatus} {j : UInt64}
    (hview : ∀ y, s'.m.view y = if y = x then some (st, j) else s.m.view y)
    (hev : ∀ y, lastChange y s'.events =
      (lastChange y [⟨type, x⟩]).or (lastChange y s.events))
    (hc : type.change = some (decide (st = .alive ∨ st = .suspect)) ∨
      type.change = none ∧ st = .suspect ∧ Up s.m x)
    (hsuspect : ∀ u, s'.recv.pending = some (.suspect, u) → Up s'.m u.nodeID)
    (hmarking : ∀ y, s'.ping = .marking y → Up s'.m y) : s'.EventInv := by
  refine ⟨fun y hy => ?_, hsuspect, hmarking⟩
  rw [hself] at hy
  rw [hev, lastChange_singleton]
  by_cases hyx : y = x
  · subst hyx
    rw [up_iff (by rw [hview, if_pos rfl]), if_pos rfl]
    rcases hc with hc | ⟨hc, hst, hup⟩
    · rw [hc]
      simp
    · rw [hc, Option.none_or, ← h.up y hy]
      exact iff_of_true (Or.inr hst) hup
  · have hy' : s'.m.view y = s.m.view y := by rw [hview, if_neg hyx]
    rw [up_congr hy', if_neg fun he => hyx he.symm, Option.none_or]
    exact h.up y hy

end

section
variable {s : Swim} (h : s.EventInv)
include h

/-- The nodes that the ping loop marks stay up, if the one whose record is written does. -/
theorem EventInv.marking_of_ne {m' : Membership} {x : NodeID}
    (hview : ∀ y ≠ x, m'.view y = s.m.view y) (hx : s.ping = .marking x → Up m' x) (y : NodeID)
    (hy : s.ping = .marking y) : Up m' y := by
  by_cases hyx : y = x
  · exact hyx ▸ hx (hyx ▸ hy)
  · exact (up_congr (hview y hyx)).2 (h.marking y hy)

variable (hpeers : s.Peers)
include hpeers

theorem EventInv.apply {u : MembershipUpdate} {rest : List MembershipUpdate} {msg : SwimMessage}
    {remote : UDPAddr} (hrecv : s.recv = .applying (u :: rest) msg remote)
    (hserial : u.status = .left → s.ping ≠ .marking u.nodeID) :
    EventInv { s with
      m := (s.m.beginUpdate u).1
      recv := .after u rest msg remote (s.m.beginUpdate u).2 } := by
  have hevents : s.events = s.m.emitted := by simp [events, Recv.due, Recv.pending, hrecv]
  have hb := s.m.beginUpdate_begins u
  generalize s.m.beginUpdate u = r at hb ⊢
  have hview : ∀ info y, (s.m.setInfo u.nodeID info).view y =
      if y = u.nodeID then some (info.status, info.incarnation) else s.m.view y :=
    fun info y => s.m.view_setInfo y u.nodeID info
  -- the record of `u.nodeID` is written, and the event is due
  have hwrite : ∀ (info : NodeInfo) (todo : Membership.Todo) (type : MembershipEventType),
      (Recv.updating todo u rest msg remote).due = [⟨type, u.nodeID⟩] → todo ≠ .suspect →
      type.change = some (decide (info.status = .alive ∨ info.status = .suspect)) →
      (s.ping = .marking u.nodeID → info.status = .alive) →
      EventInv { s with
        m := s.m.setInfo u.nodeID info
        recv := .updating todo u rest msg remote } := by
    intro info todo type hdue htodo hc hmark
    refine h.emit rfl type (hview info) (fun y => ?_) (Or.inl hc) (fun u' hu => ?_)
      (h.marking_of_ne (x := u.nodeID) (fun y hy => by rw [hview, if_neg hy]) fun hy => ?_)
    · rw [hevents, ← lastChange_append]
      unfold events
      rw [hdue]
      rfl
    · exact absurd (Prod.mk.inj (Option.some.inj hu)).1 htodo
    · exact (up_iff (by rw [hview, if_pos rfl])).2 (Or.inl (hmark hy))
  cases hb with
  | same | refute | dead =>
    refine h.congr rfl hpeers (fun _ _ => Iff.rfl) ?_ (fun u hu => by cases hu) fun _ => id
    rw [hevents]
    exact List.append_nil _
  | join =>
    exact hwrite _ .join .join rfl (by simp) (by simp [MembershipEventType.change, NodeInfo.new])
      fun _ => rfl
  | alive =>
    exact hwrite _ .stamp .alive rfl (by simp) (by simp [MembershipEventType.change]) fun _ => rfl
  | @suspect info _ hl _ _ hal =>
    refine ⟨fun y hy => ?_, fun u' hu => ?_, h.marking⟩
    · have hev : s.m.emitted ++ [] = s.events := by rw [hevents, List.append_nil]
      show Up s.m y ↔ lastChange y (s.m.emitted ++ []) = some true
      rw [hev]
      exact h.up y hy
    · cases hu
      exact (up_iff (s.m.view_eq_some _ hl)).2 (Or.inl hal)
  | left _ _ _ hs =>
    exact hwrite _ (.emit .left) .left rfl (by simp) (by simp [MembershipEventType.change])
      fun hy => absurd hy (hserial hs)

theorem EventInv.resume {todo : Membership.Todo} {u : MembershipUpdate}
    {rest : List MembershipUpdate} {msg : SwimMessage} {remote : UDPAddr}
    (hrecv : s.recv = .updating todo u rest msg remote)
    (hlock : ¬ (todo.isLocked ∧ s.ping.isMarking)) :
    EventInv { s with
      m := (s.m.resumeUpdate u todo).1
      recv := .after u rest msg remote (s.m.resumeUpdate u todo).2 } := by
  have hpending : s.recv.pending = some (todo, u) := by rw [hrecv]; rfl
  have hknown := (hpeers.pending todo u hpending).2
  have hr := s.m.resumeUpdate_resumes u todo
  generalize s.m.resumeUpdate u todo = r at hr ⊢
  have hview : ∀ info y, (s.m.setInfo u.nodeID info).view y =
      if y = u.nodeID then some (info.status, info.incarnation) else s.m.view y :=
    fun info y => s.m.view_setInfo y u.nodeID info
  -- a section that takes the lock does not run in the middle of `markSuspect`
  have hfree : todo.isLocked = true → ∀ m' y, s.ping = .marking y → Up m' y := fun hl m' y hy =>
    absurd ⟨hl, by rw [hy]; rfl⟩ hlock
  cases hr with
  | gone todo hl => exact absurd (s.m.view_eq_none _ hl) hknown
  | join | emit =>
    -- the event that was due is emitted
    refine h.congr rfl hpeers (fun _ _ => Iff.rfl) ?_ (fun u hu => by cases hu) fun _ => id
    simp [events, Recv.due, Recv.after, Recv.pending, hrecv, Membership.emitEvent]
  | queue | cancel =>
    refine h.congr rfl hpeers (fun _ _ => Iff.rfl) ?_ (fun u hu => by cases hu) fun _ => id
    simp [events, Recv.due, Recv.after, Recv.pending, hrecv, Membership.queueUpdate,
      Membership.cancelTimer, Membership.stopTimer]
  | @stamp info hl =>
    refine h.congr rfl hpeers (fun y _ => ?_) ?_ (fun u hu => by cases hu) fun _ => id
    · by_cases hy : y = u.nodeID
      · rw [up_iff (by rw [hview, if_pos hy]), up_iff (hy ▸ s.m.view_eq_some _ hl)]
      · exact up_congr (by rw [hview, if_neg hy])
    · simp [events, Recv.due, Recv.after, Recv.pending, hrecv, Membership.setInfo]
  | @suspect info hl =>
    refine h.emit rfl .suspect (hview { info with status := .suspect }) (fun y => ?_)
      (Or.inr ⟨rfl, rfl, h.suspect u hpending⟩) (fun u hu => by cases hu) (hfree rfl _)
    rw [← lastChange_append]
    simp [events, Recv.due, Recv.after, Recv.pending, hrecv, Membership.markSuspectLocked,
      Membership.emitEvent, Membership.setInfo, Membership.stopTimer, Membership.startTimer]
  | @bury info hl =>
    refine h.emit rfl .dead (hview { info with status := .dead }) (fun y => ?_)
      (Or.inl (by simp [MembershipEventType.change])) (fun u hu => by cases hu) (hfree rfl _)
    rw [← lastChange_append]
    simp [events, Recv.due, Recv.after, Recv.pending, hrecv, Membership.cancelTimer,
      Membership.stopTimer, Membership.setInfo]

theorem EventInv.mark {x : NodeID} (hping : s.ping = .marking x) :
    EventInv { s with m := s.m.setSuspect x, ping := .idle } := by
  rcases s.m.setSuspect_cases x with ⟨he, -⟩ | ⟨info, hl, he⟩
  · rw [he]
    exact h.congr rfl hpeers (fun _ _ => Iff.rfl) rfl (fun _ => id) fun y hy => by cases hy
  · have hview : ∀ y, (s.m.setSuspect x).view y =
        if y = x then some (.suspect, info.incarnation) else s.m.view y := fun y => by
      rw [s.m.view_setSuspect]
      split_ifs with hy
      · rw [hy, s.m.view_eq_some _ hl]; rfl
      · rfl
    refine h.emit (s.m.setSuspect_selfID x) .suspect hview (fun y => ?_)
      (Or.inr ⟨rfl, rfl, h.marking x hping⟩) (fun u hu => ?_) fun y hy => by cases hy
    · -- an event of suspicion does not count
      have hemitted : (s.m.setSuspect x).emitted = s.m.emitted ++ [⟨.suspect, x⟩] := by rw [he]; rfl
      have hnone : lastChange y [⟨.suspect, x⟩] = none := by
        rw [lastChange_singleton]
        exact ite_self _
      show lastChange y ((s.m.setSuspect x).emitted ++ s.recv.due) = _
      rw [hemitted, events, lastChange_append, lastChange_append, lastChange_append, hnone,
        Option.none_or, Option.none_or]
    · by_cases hux : u.nodeID = x
      · exact (up_iff ((hview _).trans (if_pos hux))).2 (Or.inr rfl)
      · exact (up_congr ((hview _).trans (if_neg hux))).2 (h.suspect u hu)

theorem EventInv.callback {x : NodeID} (hlock : ¬ s.ping.isMarking)
    (hserial : s.recv.pending.map (·.2.nodeID) ≠ some x) :
    EventInv { s with m := s.m.callback x } := by
  have hmarking : ∀ m' y, s.ping = .marking y → Up m' y := fun m' y hy =>
    absurd (by rw [hy]; rfl) hlock
  unfold Membership.callback
  split_ifs
  · rcases Membership.markDead_cases { s.m with fired := s.m.fired.erase x } x with
      ⟨he, -⟩ | ⟨info, hl, -, he⟩
    · rw [he]
      exact h.congr rfl hpeers (fun _ _ => Iff.rfl) rfl (fun _ => id) fun _ => id
    · have hview : ∀ y, (Membership.markDead { s.m with fired := s.m.fired.erase x } x).view y =
          if y = x then some (.dead, info.incarnation) else s.m.view y := fun y => by
        rw [he]
        exact s.m.view_setInfo y x { info with status := .dead }
      have hemitted : (Membership.markDead { s.m with fired := s.m.fired.erase x } x).emitted =
          s.m.emitted ++ [⟨.dead, x⟩] := by rw [he]; rfl
      refine h.emit (Membership.markDead_selfID _ x) .dead hview (fun y => ?_)
        (Or.inl (by simp [MembershipEventType.change])) (fun u hu => ?_) (hmarking _)
      · show lastChange y ((Membership.markDead _ x).emitted ++ s.recv.due) = _
        rw [hemitted, events, lastChange_append, lastChange_append, lastChange_append]
        by_cases hy : y = x
        · rw [hy, lastChange_due hserial, Option.none_or, Option.none_or]
        · rw [lastChange_singleton, if_neg fun he => hy he.symm, Option.none_or, Option.none_or]
      · -- the update in hand is about another node
        have hux : u.nodeID ≠ x := fun hux => hserial (by rw [hu, ← hux]; rfl)
        exact (up_congr ((hview _).trans (if_neg hux))).2 (h.suspect u hu)
  · exact h

theorem EventInv.step (resolve : GoString → Option UDPAddr) {a : Act} (hserial : s.Serial a) :
    (s.step resolve a).EventInv := by
  have heff := step_effect resolve s a
  generalize s.step resolve a = s' at heff ⊢
  -- transitions between two updates
  have hrest : ∀ {m' : Membership} {socket : List Datagram} {recv : Recv} {stopped : Bool}
      {sent : List Datagram}, (∀ y, m'.view y = s.m.view y) → m'.selfID = s.m.selfID →
      m'.emitted = s.m.emitted → s.recv.pending = none → recv.pending = none →
      EventInv ⟨m', socket, recv, s.ping, stopped, sent⟩ := by
    intro m' socket recv stopped sent hview hself hemitted hp hp'
    refine h.congr hself hpeers (fun y _ => up_congr (hview y)) ?_ (fun u hu => ?_) fun _ => id
    · simp [events, Recv.due, hp, hp', hemitted]
    · rw [hp'] at hu; cases hu
  -- transitions of the ping loop
  have hping : ∀ {m' : Membership} {ping : Ping} {sent : List Datagram},
      (∀ y, m'.view y = s.m.view y) → m'.selfID = s.m.selfID → m'.emitted = s.m.emitted →
      ¬ ping.isMarking → EventInv ⟨m', s.socket, s.recv, ping, s.stopped, sent⟩ := by
    intro m' ping sent hview hself hemitted hmark
    refine h.congr hself hpeers (fun y _ => up_congr (hview y)) ?_ (fun u => id) fun y hy => ?_
    · simp [events, hemitted]
    · exact absurd (by rw [show ping = .marking y from hy]; rfl) hmark
  cases heff with
  | apply hrecv =>
    refine h.apply hpeers hrecv ?_
    exact hserial _ (by rw [hrecv]; rfl)
  | resume hrecv hlock => exact h.resume hpeers hrecv hlock
  | read hrecv => exact hrest (fun _ => rfl) rfl rfl (by rw [hrecv]; rfl) rfl
  | ping hrecv | pingReq hrecv | join hrecv | ignore hrecv | relay hrecv | recvTimeout hrecv =>
    exact hrest (fun _ => rfl) rfl rfl (by rw [hrecv]; rfl) rfl
  | @ack _ msg _ hrecv =>
    obtain ⟨_, _, he⟩ := s.m.handleAck_eq msg
    rw [he]
    exact hrest (fun _ => rfl) rfl rfl (by rw [hrecv]; rfl) rfl
  | recvStop hrecv hr =>
    refine hrest (fun _ => rfl) rfl rfl ?_ (by rcases hr with rfl | rfl <;> rfl)
    cases hs : s.recv with
    | updating => rw [hs] at hrecv; rcases hrecv with hrecv | hrecv <;> cases hrecv
    | _ => rfl
  | tick => exact hping (fun _ => rfl) rfl rfl Bool.false_ne_true
  | pingReqs => exact hping (fun _ => rfl) rfl rfl Bool.false_ne_true
  | pingMove _ _ hmark => exact hping (fun _ => rfl) rfl rfl hmark
  | pingTimeout _ _ hmark => exact hping (fun _ => rfl) rfl rfl hmark
  | @suspect x hs hcan =>
    refine ⟨h.up, h.suspect, fun y hy => ?_⟩
    cases hy
    -- a known node that is neither Suspect nor Dead nor Left is Alive
    obtain ⟨info, hl, hd, hlf, hsus⟩ := (s.m.canSuspect_iff x).1 hcan
    refine (up_iff (s.m.view_eq_some _ hl)).2 (Or.inl ?_)
    rcases hpeers.m.status x _ _ (s.m.view_eq_some _ hl) with ha | ha | ha | ha
    · exact ha
    · exact absurd ha hsus
    · exact absurd ha hd
    · exact absurd ha hlf
  | mark hping => exact h.mark hpeers hping
  | callback x hlock => exact h.callback hpeers hlock hserial
  | fire t =>
    obtain ⟨_, _, he⟩ := s.m.fire_eq t
    rw [he]
    exact h.congr rfl hpeers (fun _ _ => Iff.rfl) rfl (fun _ => id) fun _ => id
  | leave =>
    refine h.congr rfl hpeers (fun y hy => up_congr ?_) rfl (fun _ => id) fun _ => id
    rw [Membership.view_leave, if_neg hy]
  | halt ord =>
    obtain ⟨_, he⟩ := s.m.stopTimers_eq ord
    rw [he]
    exact h.congr rfl hpeers (fun _ _ => Iff.rfl) rfl (fun _ => id) fun _ => id
  | _ => exact h.congr rfl hpeers (fun _ _ => Iff.rfl) rfl (fun _ => id) fun _ => id

end

theorem start_eventInv (selfID : NodeID) (addrs : Addrs) (injector : Option FaultInjector) :
    (start selfID addrs injector).EventInv := by
  refine ⟨fun x hx => ?_, ?_, ?_⟩
  · have hx' : x ≠ selfID := hx
    have hview : (start selfID addrs injector).m.view x = none :=
      (Membership.view_start x selfID addrs injector).trans (if_neg hx')
    have hl : lastChange x (start selfID addrs injector).events = none := rfl
    rw [hl]
    refine iff_of_false ?_ (by simp)
    rintro ⟨st, j, hv, -⟩
    rw [hview] at hv
    cases hv
  · intro u hu
    cases hu
  · intro x hx
    cases hx

end Swim

/-! ## Connections -/

namespace Wired

/-- The peers the replication manager holds a connection to. -/
def conns (w : Wired) : Finset NodeID :=
  w.server.replicationMgr.elim ∅ fun rm => rm.peerConns.keys

/-- How the ring and the connections stand to each other at `x`, before a callback about `x`, at
    its stages, and after it. -/
def Linked (w : Wired) (x : NodeID) : Option Stage → Prop
  | none => x ∈ w.conns ↔ x ∈ w.server.ring.nodes
  | some (.added _) | some (.connect _) => x ∈ w.server.ring.nodes
  | some .removed => x ∉ w.server.ring.nodes
  | some .closed => x ∉ w.server.ring.nodes ∧ x ∉ w.conns

/-- `w'` is `w`, but for whether `x` is in the ring and connected. -/
structure Relinks (w w' : Wired) (x : NodeID) : Prop where
  nodeID : w'.server.nodeID = w.server.nodeID
  manager : w'.server.replicationMgr.isSome = w.server.replicationMgr.isSome
  nodes : ∀ y ≠ x, y ∈ w'.server.ring.nodes ↔ y ∈ w.server.ring.nodes
  conns : ∀ y ≠ x, y ∈ w'.conns ↔ y ∈ w.conns

theorem Relinks.refl (w : Wired) (x : NodeID) : Relinks w w x :=
  ⟨rfl, rfl, fun _ _ => Iff.rfl, fun _ _ => Iff.rfl⟩

theorem Linked.congr {w w' : Wired} {x : NodeID} {stage : Option Stage} (h : w.Linked x stage)
    (hn : x ∈ w'.server.ring.nodes ↔ x ∈ w.server.ring.nodes)
    (hc : x ∈ w'.conns ↔ x ∈ w.conns) : w'.Linked x stage := by
  match stage with
  | none => exact hc.trans (h.trans hn.symm)
  | some (.added _) | some (.connect _) => exact hn.2 h
  | some .removed => exact fun he => h (hn.1 he)
  | some .closed => exact ⟨fun he => h.1 (hn.1 he), fun he => h.2 (hc.1 he)⟩

theorem peerConns_reReplicate (rm : ReplicationManager) (ring : Ring) (ord : RangeOrder Key Entry)
    (store : Store) (now : Time) :
    (rm.reReplicateForDeadNode ring ord store now).1.peerConns = rm.peerConns :=
  congrArg (·.2.2) (reReplicate_spec rm ring ord store now).1

theorem mem_connectToPeer {dial : GoString → Bool} (hdial : ∀ a, dial a = true)
    (rm : ReplicationManager) (x y : NodeID) (addr : GoString) :
    y ∈ (rm.connectToPeer dial x addr).peerConns ↔ y = x ∨ y ∈ rm.peerConns := by
  simp only [ReplicationManager.connectToPeer, hdial, if_true]
  split_ifs with hx
  · rw [or_iff_right_of_imp]
    rintro rfl
    exact hx
  · exact Finmap.mem_insert

section
variable {w : Wired} {f : ReplicationManager → ReplicationManager × List Send} {x : NodeID}

theorem mem_conns {rm : ReplicationManager} (hrm : w.server.replicationMgr = some rm) (y : NodeID) :
    y ∈ w.conns ↔ y ∈ rm.peerConns := by
  unfold conns
  rw [hrm]
  exact Finmap.mem_keys

/-- A change of the manager that keeps the connections to the nodes other than `x`. -/
theorem withManager_relinks
    (hf : ∀ rm, ∀ y ≠ x, y ∈ (f rm).1.peerConns ↔ y ∈ rm.peerConns) :
    Relinks w (w.withManager f) x := by
  cases hrm : w.server.replicationMgr with
  | none =>
    rw [withManager_of_none hrm]
    exact .refl w x
  | some rm =>
    rw [withManager_of_some hrm]
    refine ⟨rfl, by rw [hrm]; rfl, fun _ _ => Iff.rfl, fun y hy => ?_⟩
    rw [mem_conns hrm, mem_conns rfl]
    exact hf rm y hy

theorem mem_withManager {rm : ReplicationManager} (hrm : w.server.replicationMgr = some rm)
    (y : NodeID) : y ∈ (w.withManager f).conns ↔ y ∈ (f rm).1.peerConns := by
  rw [withManager_of_some hrm, mem_conns rfl]

theorem connect_relinks {env : Env} (hdial : ∀ a, env.dial a = true) (addr : GoString) :
    Relinks w (w.connect env x addr) x :=
  withManager_relinks fun rm y hy => by
    rw [mem_connectToPeer hdial]
    exact or_iff_right hy

end

/-- What the start of a callback does to the ring is the change its event stands for. -/
theorem startEvent_nodes (env : Env) {w : Wired} {event : MembershipEvent} {info : NodeInfo}
    (hl : w.m.registry.lookup event.nodeID = some info) :
    (w.startEvent env event).1.server.ring.nodes =
      match event.type.change with
      | some true => insert event.nodeID w.server.ring.nodes
      | some false => w.server.ring.nodes.erase event.nodeID
      | none => w.server.ring.nodes := by
  unfold startEvent
  cases event.type with
  | join | alive => simp only [hl]; exact Ring.addNode_nodes ..
  | dead | left => exact Ring.removeNode_nodes ..
  | suspect => rfl

theorem startEvent_relinks (env : Env) (w : Wired) (event : MembershipEvent) :
    Relinks w (w.startEvent env event).1 event.nodeID := by
  have hring : ∀ ring : Ring, (∀ y ≠ event.nodeID, y ∈ ring.nodes ↔ y ∈ w.server.ring.nodes) →
      Relinks w { w with server := { w.server with ring } } event.nodeID := fun ring hr =>
    ⟨rfl, rfl, hr, fun _ _ => Iff.rfl⟩
  unfold startEvent
  cases event.type with
  | join | alive =>
    dsimp only
    split
    · exact .refl w _
    · refine hring _ fun y hy => ?_
      rw [Ring.addNode_nodes, Finset.mem_insert]
      exact or_iff_right hy
  | dead | left =>
    refine hring _ fun y hy => ?_
    rw [Ring.removeNode_nodes, Finset.mem_erase]
    exact and_iff_right hy
  | suspect => exact .refl w _

/-- **The start of a callback.**  The ring has the node, or has it no more; the connection is left
    to the stages that follow. -/
theorem startEvent_linked (env : Env) {w : Wired} {event : MembershipEvent} {info : NodeInfo}
    (hl : w.m.registry.lookup event.nodeID = some info) (h : w.Linked event.nodeID none) :
    (w.startEvent env event).1.Linked event.nodeID (w.startEvent env event).2 := by
  unfold startEvent
  cases event.type with
  | join | alive =>
    simp only [hl]
    have hmem : event.nodeID ∈ (w.server.ring.addNode env.sort event.nodeID).1.nodes := by
      rw [Ring.addNode_nodes]
      exact Finset.mem_insert_self _ _
    split_ifs <;> exact hmem
  | dead | left =>
    have hnodes := Ring.removeNode_nodes w.server.ring event.nodeID
    dsimp only
    split_ifs with hr
    · show event.nodeID ∉ (w.server.ring.removeNode event.nodeID).1.nodes
      rw [hnodes]
      exact Finset.notMem_erase _ _
    · have hout : event.nodeID ∉ w.server.ring.nodes := by simpa [Ring.removeNode_snd] using hr
      show event.nodeID ∈ w.conns ↔ event.nodeID ∈ (w.server.ring.removeNode event.nodeID).1.nodes
      rw [hnodes, Finset.erase_eq_of_notMem hout]
      exact h
  | suspect => exact h

theorem resumeEvent_ring (env : Env) (w : Wired) (ord : RangeOrder Key Entry) (now : Time)
    (event : MembershipEvent) (stage : Stage) :
    (w.resumeEvent env ord now event stage).1.server.ring = w.server.ring := by
  cases stage with
  | added addr =>
    rcases onNodeAdded_cases env w event.nodeID with he | ⟨info, -, -, he⟩
    · simp [resumeEvent, he]
    · simp [resumeEvent, he, connect]
  | connect addr =>
    simp only [resumeEvent]
    split_ifs <;> simp [connect]
  | removed | closed => exact withManager_ring

section
variable {env : Env} (hdial : ∀ a, env.dial a = true) {w : Wired} (ord : RangeOrder Key Entry)
  (now : Time) {event : MembershipEvent} (stage : Stage)
include hdial

theorem resumeEvent_relinks : Relinks w (w.resumeEvent env ord now event stage).1 event.nodeID := by
  cases stage with
  | added addr =>
    simp only [resumeEvent]
    rcases onNodeAdded_cases env w event.nodeID with he | ⟨info, -, -, he⟩
    · rw [he]
      exact .refl w _
    · rw [he]
      exact connect_relinks hdial _
  | connect addr =>
    simp only [resumeEvent]
    split_ifs
    · exact connect_relinks hdial addr
    · exact .refl w _
  | removed =>
    refine withManager_relinks fun rm y hy => ?_
    rw [Finmap.mem_erase]
    exact and_iff_right hy
  | closed =>
    refine withManager_relinks fun rm y _ => ?_
    rw [peerConns_reReplicate]

/-- **The stages of a callback.**  At the end the node is connected exactly if the ring has it. -/
theorem resumeEvent_linked (hx : event.nodeID ≠ w.server.nodeID) {rm : ReplicationManager}
    (hrm : w.server.replicationMgr = some rm) (h : w.Linked event.nodeID (some stage)) :
    (w.resumeEvent env ord now event stage).1.Linked event.nodeID
      (w.resumeEvent env ord now event stage).2 := by
  have hring := resumeEvent_ring env w ord now event stage
  cases stage with
  | added addr =>
    show event.nodeID ∈ (w.resumeEvent env ord now event (.added addr)).1.server.ring.nodes
    rw [hring]
    exact h
  | connect addr =>
    simp only [resumeEvent, if_pos hx] at hring ⊢
    have hmem : event.nodeID ∈ (w.connect env event.nodeID addr).conns := by
      rw [connect, mem_withManager hrm, mem_connectToPeer hdial]
      exact Or.inl rfl
    refine iff_of_true hmem ?_
    rw [hring]
    exact h
  | removed =>
    refine ⟨by rw [hring]; exact h, ?_⟩
    simp only [resumeEvent]
    rw [mem_withManager hrm, Finmap.mem_erase]
    exact fun he => he.1 rfl
  | closed =>
    refine iff_of_false ?_ (by rw [hring]; exact h.1)
    simp only [resumeEvent]
    rw [mem_withManager hrm, peerConns_reReplicate, ← mem_conns hrm]
    exact h.2

end

end Wired

/-! ## The callbacks of a node -/

namespace Node

/-- The callbacks after a section of the one in the middle. -/
theorem advance_append (l₁ l₂ : List Callback) (cb : Callback) (next : Option Wired.Stage) :
    advance (l₁ ++ cb :: l₂) l₁.length cb next =
      l₁ ++ (next.toList.map fun stage => { cb with stage }) ++ l₂ := by
  cases next <;> simp [advance, List.eraseIdx_append_of_length_le, List.set_append_right]

/-- A callback about a node starts only when no other one about it runs, and nothing comes between
    the write of a status and its event. -/
def Serial (n : Node) : Act → Prop
  | .swim a => n.swim.Serial a
  | .handle event => ∀ cb ∈ n.running, cb.event.nodeID ≠ event.nodeID
  | _ => True

instance (n : Node) : ∀ a, Decidable (n.Serial a)
  | .swim a => inferInstanceAs (Decidable (n.swim.Serial a))
  | .handle event =>
    inferInstanceAs (Decidable (∀ cb ∈ n.running, cb.event.nodeID ≠ event.nodeID))
  | .resume _ _ _ | .request _ _ | .replicate _ _ => inferInstanceAs (Decidable True)

/-- The ring follows the events handled, and the connections follow the ring, except for the nodes
    whose callback runs. -/
structure RingInv (n : Node) : Prop where
  nodeID : n.server.nodeID = n.swim.m.selfID
  manager : n.server.replicationMgr.isSome
  conns : n.swim.m.selfID ∉ n.wired.conns
  peers : ∀ cb ∈ n.running, cb.event.nodeID ≠ n.swim.m.selfID
  nodes : ∀ x ≠ n.swim.m.selfID, x ∈ n.server.ring.nodes ↔ lastChange x n.handled = some true
  alone : n.running.Pairwise fun cb cb' => cb.event.nodeID ≠ cb'.event.nodeID
  linked : ∀ cb ∈ n.running, n.wired.Linked cb.event.nodeID (some cb.stage)
  idle : ∀ x ≠ n.swim.m.selfID, (∀ cb ∈ n.running, cb.event.nodeID ≠ x) → n.wired.Linked x none

section
variable {env : Env} {resolve : GoString → Option UDPAddr} {n : Node} (h : RingInv n)
include h

/-- A section of the callback about an event, which leaves the other callbacks alone. -/
theorem RingInv.section {event : MembershipEvent} (stage : Option Wired.Stage)
    {next : Option Wired.Stage} (l₁ l₂ : List Callback) {w : Wired} {handled : List MembershipEvent}
    (hrun : n.running = l₁ ++ (stage.toList.map fun stage => ⟨event, stage⟩) ++ l₂)
    (hself : event.nodeID ≠ n.swim.m.selfID)
    (hothers : ∀ cb ∈ l₁ ++ l₂, cb.event.nodeID ≠ event.nodeID)
    (hw : n.wired.Relinks w event.nodeID) (hlinked : w.Linked event.nodeID next)
    (hnodes : ∀ x ≠ n.swim.m.selfID,
      x ∈ w.server.ring.nodes ↔ lastChange x handled = some true) :
    RingInv { n with
      server := w.server
      sends := w.sends
      handled := handled
      running := l₁ ++ (next.toList.map fun stage => ⟨event, stage⟩) ++ l₂ } := by
  have hold : ∀ cb ∈ l₁ ++ l₂, cb ∈ n.running := fun cb hcb => by
    rw [hrun]
    rcases List.mem_append.1 hcb with hcb | hcb <;> simp [hcb]
  -- a callback is one of the others, or it is the one about the event
  have hcase : ∀ {next : Option Wired.Stage},
      ∀ cb ∈ l₁ ++ (next.toList.map fun stage => (⟨event, stage⟩ : Callback)) ++ l₂,
      cb ∈ l₁ ++ l₂ ∨ ∃ stage, next = some stage ∧ cb = ⟨event, stage⟩ := fun cb hcb => by
    rcases List.mem_append.1 hcb with hcb | hcb
    · rcases List.mem_append.1 hcb with hcb | hcb
      · exact Or.inl (List.mem_append_left _ hcb)
      · obtain ⟨stage, hstage, rfl⟩ := List.mem_map.1 hcb
        exact Or.inr ⟨stage, Option.mem_toList.1 hstage, rfl⟩
    · exact Or.inl (List.mem_append_right _ hcb)
  refine ⟨hw.nodeID.trans h.nodeID, hw.manager.trans h.manager, ?_, fun cb hcb => ?_, hnodes, ?_,
    fun cb hcb => ?_, fun x hx hidle => ?_⟩
  · exact fun hmem => h.conns ((hw.conns _ fun he => hself he.symm).1 hmem)
  · rcases hcase cb hcb with hcb | ⟨stage, -, rfl⟩
    · exact h.peers cb (hold cb hcb)
    · exact hself
  · have hrest : (l₁ ++ l₂).Pairwise fun cb cb' => cb.event.nodeID ≠ cb'.event.nodeID := by
      refine h.alone.sublist ?_
      rw [hrun, List.append_assoc]
      exact (List.sublist_append_right _ _).append_left l₁
    cases next with
    | none => simpa using hrest
    | some stage =>
      simp only [Option.toList_some, List.map_cons, List.map_nil, List.append_assoc,
        List.singleton_append]
      refine (List.pairwise_middle Ne.symm).2 (List.pairwise_cons.2 ⟨?_, hrest⟩)
      exact fun cb hcb => (hothers cb hcb).symm
  · rcases hcase cb hcb with hcb | ⟨stage, rfl, rfl⟩
    · have hne := hothers cb hcb
      exact (h.linked cb (hold cb hcb)).congr (hw.nodes _ hne) (hw.conns _ hne)
    · exact hlinked
  · by_cases he : x = event.nodeID
    · -- the callback about `x` has ended
      subst he
      cases next with
      | none => exact hlinked
      | some stage => exact absurd rfl (hidle ⟨event, stage⟩ (by simp))
    · refine (h.idle x hx fun cb hcb => ?_).congr (hw.nodes x he) (hw.conns x he)
      rcases hcase cb (hrun ▸ hcb) with hcb | ⟨stage, -, rfl⟩
      · refine hidle cb ?_
        rcases List.mem_append.1 hcb with hcb | hcb <;> simp [hcb]
      · exact fun hx => he hx.symm

theorem RingInv.handle (hpeers : n.swim.Peers) {event : MembershipEvent}
    (hev : event ∈ n.swim.m.emitted) (hserial : n.Serial (.handle event)) :
    RingInv (n.step env resolve (.handle event)) := by
  have hself := hpeers.m.event event hev
  obtain ⟨info, hl⟩ : ∃ info, n.wired.m.registry.lookup event.nodeID = some info := by
    refine Option.ne_none_iff_exists'.1 fun hnone => ?_
    exact hpeers.m.known event hev (n.swim.m.view_eq_none _ hnone)
  have hnodes : ∀ x ≠ n.swim.m.selfID, x ∈ (n.wired.startEvent env event).1.server.ring.nodes ↔
      lastChange x (n.handled ++ [event]) = some true := by
    intro x hx
    rw [Wired.startEvent_nodes env hl, lastChange_append, lastChange_singleton]
    have hnodes := h.nodes x hx
    by_cases he : event.nodeID = x
    · subst he
      rw [if_pos rfl]
      cases event.type.change with
      | none => exact hnodes
      | some b => cases b <;> simp
    · have he' : x ≠ event.nodeID := fun h => he h.symm
      rw [if_neg he, Option.none_or, ← hnodes]
      cases event.type.change with
      | none => rfl
      | some b => cases b <;> simp [he', wired]
  have hstep := h.section none n.running [] (by simp) hself
    (by rw [List.append_nil]; exact hserial) (Wired.startEvent_relinks env n.wired event)
    (Wired.startEvent_linked env hl (h.idle _ hself hserial)) hnodes
  rw [List.append_nil] at hstep
  exact hstep

theorem RingInv.resume (hdial : ∀ a, env.dial a = true) (i : ℕ) (ord : RangeOrder Key Entry)
    (now : Time) : RingInv (n.step env resolve (.resume i ord now)) := by
  simp only [step]
  cases hcb : n.running[i]? with
  | none => exact h
  | some cb =>
    obtain ⟨hi, hget⟩ := List.getElem?_eq_some_iff.1 hcb
    -- the callback between the others
    obtain ⟨l₁, l₂, hrun, rfl⟩ : ∃ l₁ l₂, n.running = l₁ ++ cb :: l₂ ∧ l₁.length = i :=
      ⟨n.running.take i, n.running.drop (i + 1),
        by rw [← hget, List.getElem_cons_drop, List.take_append_drop], List.length_take_of_le hi.le⟩
    have hmem : cb ∈ n.running := by rw [hrun]; simp
    obtain ⟨rm, hrm⟩ := Option.isSome_iff_exists.1 h.manager
    have hself := h.peers cb hmem
    have hid : cb.event.nodeID ≠ n.wired.server.nodeID := fun he => hself (he.trans h.nodeID)
    have halone := h.alone
    rw [hrun] at halone
    have hothers := (List.pairwise_cons.1
      ((List.pairwise_middle Ne.symm).1 halone)).1
    dsimp only
    rw [hrun, advance_append]
    refine h.section (some cb.stage) l₁ l₂ (by simpa using hrun) hself
      (fun cb' hcb' => (hothers cb' hcb').symm) (Wired.resumeEvent_relinks hdial ord now cb.stage)
      (Wired.resumeEvent_linked hdial ord now cb.stage hid hrm (h.linked cb hmem)) fun x hx => ?_
    rw [Wired.resumeEvent_ring]
    exact h.nodes x hx

/-- A handler keeps the ring and the connections. -/
theorem RingInv.sameWiring {server : CacheServer} (hs : n.server.SameWiring server)
    (sends : List Send) : RingInv { n with server, sends } := by
  obtain ⟨rm, hrm⟩ := Option.isSome_iff_exists.1 h.manager
  have hmap := hs.replicationMgr
  rw [hrm] at hmap
  obtain ⟨rm', hrm', hwiring⟩ := Option.map_eq_some_iff.1 hmap
  have hpeers : rm'.peerConns = rm.peerConns := congrArg (·.2.2) hwiring
  have hconns : ∀ y, y ∈ Wired.conns ⟨n.swim.m, server, sends⟩ ↔ y ∈ n.wired.conns := fun y => by
    rw [Wired.mem_conns (w := n.wired) hrm, Wired.mem_conns hrm', hpeers]
  have hnodes : ∀ y, y ∈ server.ring.nodes ↔ y ∈ n.server.ring.nodes := fun y => by rw [hs.ring]
  refine ⟨hs.nodeID.trans h.nodeID, ?_, fun hmem => h.conns ((hconns _).1 hmem), h.peers,
    fun x hx => (hnodes x).trans (h.nodes x hx), h.alone,
    fun cb hcb => (h.linked cb hcb).congr (hnodes _) (hconns _),
    fun x hx hidle => (h.idle x hx hidle).congr (hnodes x) (hconns x)⟩
  show server.replicationMgr.isSome
  rw [hrm']
  rfl

theorem RingInv.step (hinv : Inv n) (hdial : ∀ a, env.dial a = true) {a : Act} (ha : n.Enabled a)
    (hserial : n.Serial a) : RingInv (n.step env resolve a) := by
  cases a with
  | swim a =>
    have hself : (n.swim.step resolve a).m.selfID = n.swim.m.selfID :=
      Swim.step_selfID resolve n.swim a
    refine ⟨h.nodeID.trans hself.symm, h.manager, ?_, fun cb hcb => ?_, fun x hx => ?_, h.alone,
      h.linked, fun x hx => ?_⟩
    · show (n.swim.step resolve a).m.selfID ∉ n.wired.conns
      rw [hself]
      exact h.conns
    · exact fun he => h.peers cb hcb (he.trans hself)
    · exact h.nodes x fun he => hx (he.trans hself.symm)
    · exact h.idle x fun he => hx (he.trans hself.symm)
  | handle event => exact h.handle hinv.swim ha.emitted hserial
  | resume i ord now => exact h.resume hdial i ord now
  | request now req => exact h.sameWiring (n.server.handle_sameWiring now req) _
  | replicate now req => exact h.sameWiring (n.server.replicate_sameWiring now req) _

end

theorem step_eventInv {env : Env} {resolve : GoString → Option UDPAddr} {n : Node} (hinv : Inv n)
    (h : n.swim.EventInv) {a : Act} (hserial : n.Serial a) :
    (n.step env resolve a).swim.EventInv := by
  cases a with
  | swim a => exact h.step hinv.swim resolve hserial
  | resume i ord now => rwa [resume_swim]
  | _ => exact h

theorem start_ringInv (env : Env) (nodeID : NodeID) (addrs : Addrs) (inj : Option FaultInjector)
    (vnodeCount replicaCount : ℤ) (maxLoadFactor : ℚ) :
    RingInv (start env nodeID addrs inj vnodeCount replicaCount maxLoadFactor) := by
  have hring : (start env nodeID addrs inj vnodeCount replicaCount maxLoadFactor).server.ring.nodes
      = {nodeID} := Ring.addNode_nodes ..
  have hconns : (start env nodeID addrs inj vnodeCount replicaCount maxLoadFactor).wired.conns = ∅ :=
    rfl
  refine ⟨rfl, rfl, ?_, fun cb hcb => absurd hcb List.not_mem_nil, fun x hx => ?_, List.Pairwise.nil,
    fun cb hcb => absurd hcb List.not_mem_nil, fun x hx _ => ?_⟩
  · rw [hconns]
    exact Finset.notMem_empty _
  · have hx' : x ≠ nodeID := hx
    rw [hring]
    simp [hx', start, lastChange]
  · have hx' : x ≠ nodeID := hx
    show x ∈ (start env nodeID addrs inj vnodeCount replicaCount maxLoadFactor).wired.conns ↔
      x ∈ (start env nodeID addrs inj vnodeCount replicaCount maxLoadFactor).server.ring.nodes
    rw [hconns, hring]
    simp [hx']

/-! ## Quiescence -/

/-- All events have been handled, and nothing is on its way. -/
structure Quiescent (n : Node) : Prop where
  handled : n.handled.Perm n.swim.m.emitted
  running : n.running = []
  pending : n.swim.recv.pending = none

/-- The ring is the node itself and the peers that are up, and the replication manager is
    connected to exactly the other members of the ring. -/
structure Agrees (n : Node) : Prop where
  ring : ∀ x, x ∈ n.server.ring.nodes ↔ x = n.swim.m.selfID ∨ Up n.swim.m x
  conns : ∃ rm, n.server.replicationMgr = some rm ∧
    ∀ x, x ∈ rm.peerConns ↔ x ∈ n.server.ring.nodes ∧ x ≠ n.swim.m.selfID

/-- The events handled and the events emitted end with the same change, for every peer. -/
def LastHandledLast (n : Node) : Prop :=
  ∀ x ≠ n.swim.m.selfID, lastChange x n.handled = lastChange x n.swim.m.emitted

theorem RingInv.agrees_iff {n : Node} (h : RingInv n) (hev : n.swim.EventInv) (hinv : Inv n)
    (hq : n.Quiescent) : Agrees n ↔ LastHandledLast n := by
  have hevents : n.swim.events = n.swim.m.emitted := by
    simp [Swim.events, Recv.due, hq.pending]
  have hnodes : ∀ x ≠ n.swim.m.selfID, (x ∈ n.server.ring.nodes ↔ Up n.swim.m x) ↔
      lastChange x n.handled = lastChange x n.swim.m.emitted := by
    intro x hx
    rw [h.nodes x hx, hev.up x hx, hevents]
    -- handled and emitted events are the same, so both sides know of a change or neither
    have hbool : ∀ a b : Option Bool, (a = none ↔ b = none) →
        ((a = some true ↔ b = some true) ↔ a = b) := by decide
    exact hbool _ _ (lastChange_perm hq.handled)
  constructor
  · intro ha x hx
    refine (hnodes x hx).1 ?_
    rw [ha.ring x]
    exact or_iff_right hx
  · intro hl
    refine ⟨fun x => ?_, ?_⟩
    · by_cases hx : x = n.swim.m.selfID
      · subst hx
        exact iff_of_true hinv.self (Or.inl rfl)
      · rw [(hnodes x hx).2 (hl x hx)]
        exact (or_iff_right hx).symm
    · obtain ⟨rm, hrm⟩ := Option.isSome_iff_exists.1 h.manager
      have hconns : ∀ x, x ∈ n.wired.conns ↔ x ∈ rm.peerConns := Wired.mem_conns hrm
      refine ⟨rm, hrm, fun x => ?_⟩
      rw [← hconns]
      by_cases hx : x = n.swim.m.selfID
      · subst hx
        exact iff_of_false h.conns fun he => he.2 rfl
      · -- no callback runs any more
        refine (h.idle x hx ?_).trans (and_iff_left hx).symm
        rw [hq.running]
        exact fun cb hcb => absurd hcb List.not_mem_nil

/-- **Quiescence.**  In every run of a node as in `main` in which dialing succeeds, with every order
    of the callbacks, but where a callback about a node does not overlap another one about it, and
    nothing comes between the write of a status and its event: once all events have been handled,
    the ring, the registry and the connections agree if and only if the last event handled about
    each peer says the same as the last one emitted. -/
theorem quiescent_agrees_iff (env : Env) (resolve : GoString → Option UDPAddr)
    (hdial : ∀ a, env.dial a = true) (nodeID : NodeID) (addrs : Addrs) (inj : Option FaultInjector)
    (vnodeCount replicaCount : ℤ) (maxLoadFactor : ℚ) (acts : List Act)
    (hacts : Along (step env resolve) (fun n a => n.Enabled a ∧ n.Serial a)
      (start env nodeID addrs inj vnodeCount replicaCount maxLoadFactor) acts) :
    let n := run (step env resolve)
      (start env nodeID addrs inj vnodeCount replicaCount maxLoadFactor) acts
    n.Quiescent → (n.Agrees ↔ n.LastHandledLast) := by
  intro n hq
  have hinv : Inv n ∧ n.swim.EventInv ∧ RingInv n := by
    refine hacts.inv (I := fun n : Node => Inv n ∧ n.swim.EventInv ∧ RingInv n)
      (fun n a h ha => ?_) ⟨start_inv .., Swim.start_eventInv nodeID addrs inj, start_ringInv ..⟩
    obtain ⟨hinv, hev, hring⟩ := h
    exact ⟨hinv.step n a ha.1, step_eventInv hinv hev ha.2, hring.step hinv hdial ha.1 ha.2⟩
  exact hinv.2.2.agrees_iff hinv.2.1 hinv.1 hq

/-- Node `a`, with one virtual node per node. -/
def alone : Node := start Wired.env (ascii ['a']) ⟨[], [], []⟩ none 1 2 0

/-- The state of `a` after a run. -/
def observed (acts : List Act) : Node := run (step Wired.env some) alone acts

/-- Node `a` reads a message with updates. -/
def hearsOf (updates : List MembershipUpdate) : List Act :=
  [.swim (.arrive ⟨[], ⟨.ack, ascii ['b'], [], [], 0, updates⟩⟩), .swim .read]

/-- `b` joins and is then reported dead. -/
def joinAndDie : List Act :=
  hearsOf [.report (ascii ['b']) .alive 0, .report (ascii ['b']) .dead 0] ++
    (Swim.applies ++ Swim.applies).map .swim

/-- The callback of an event about `b`, from its start to its end. -/
noncomputable def handles (type : MembershipEventType) : List Act :=
  [.handle ⟨type, ascii ['b']⟩, .resume 0 default 0, .resume 0 default 0]

/-- The callback of the Join event runs first. -/
noncomputable def inOrder : List Act := joinAndDie ++ handles .join ++ handles .dead

theorem quiescent_agrees_inOrder :
    ascii ['b'] ∈ (observed (joinAndDie ++ handles .join)).server.ring.nodes ∧
      (observed inOrder).Agrees := by
  have hq : (observed inOrder).Quiescent :=
    ⟨by decide +kernel, by decide +kernel, by decide +kernel⟩
  have hhandled : (observed inOrder).handled =
      (observed inOrder).swim.m.emitted := by decide +kernel
  refine ⟨by decide +kernel, (quiescent_agrees_iff Wired.env some (fun _ => rfl) _ _ _ _ _ _ inOrder
    (by decide +kernel) hq).2 fun x _ => ?_⟩
  exact congrArg (lastChange x) hhandled

/-- The callback of the Dead event runs first. -/
noncomputable def reversed : List Act := joinAndDie ++ handles .dead ++ handles .join

/-- The callback of the Dead event runs between `AddNode` and `ConnectToPeer` of the other. -/
noncomputable def overlapping : List Act :=
  joinAndDie ++ [.handle ⟨.join, ascii ['b']⟩, .resume 0 default 0, .handle ⟨.dead, ascii ['b']⟩,
    .resume 1 default 0, .resume 1 default 0, .resume 0 default 0]

/-- `b` is revived, and its suspicion times out between the write of the status and the lock. -/
noncomputable def interrupted : List Act :=
  hearsOf [.report (ascii ['b']) .alive 0, .report (ascii ['b']) .suspect 0,
      .report (ascii ['b']) .alive 1] ++
    List.map .swim (Swim.applies ++ Swim.applies ++
      [.apply, .fire 0, .callback (ascii ['b']), .resume, .resume, .resume]) ++
    handles .join ++ handles .suspect ++ handles .dead ++ handles .alive

/-- A dead node in the ring, or a connection to it. -/
theorem not_agrees {n : Node} {x : NodeID} {i : UInt64} (hself : x ≠ n.swim.m.selfID)
    (hv : n.swim.m.view x = some (.dead, i)) (hx : x ∈ n.server.ring.nodes ∨ x ∈ n.wired.conns) :
    ¬ n.Agrees := by
  intro ha
  obtain ⟨rm, hrm, hconns⟩ := ha.conns
  have hring : x ∈ n.server.ring.nodes :=
    hx.elim id fun hx => ((hconns x).1 ((Wired.mem_conns (w := n.wired) hrm x).1 hx)).1
  rcases (ha.ring x).1 hring with he | hup
  · exact hself he
  · exact absurd ((Swim.up_iff hv).1 hup) (by decide)

/-- **The orders that go wrong.**  All events are handled, and `b` is dead; but it is in the ring
    when the callbacks run in the wrong order, connected to when they overlap, and in the ring when
    they run one after the other in the order of the events, but the timeout came in the middle of
    the update. -/
theorem quiescent_disagrees :
    (∀ acts ∈ [reversed, overlapping, interrupted],
      Along (step Wired.env some) Enabled alone acts ∧
        (observed acts).Quiescent ∧
        (∃ i, (observed acts).swim.m.view (ascii ['b']) = some (.dead, i)) ∧
        ¬ (observed acts).Agrees) ∧
      ascii ['b'] ∈ (observed reversed).server.ring.nodes ∧
      ascii ['b'] ∈ (observed overlapping).wired.conns ∧
      ascii ['b'] ∈ (observed interrupted).server.ring.nodes := by
  have hdead : ∀ acts i, (observed acts).swim.m.view (ascii ['b']) = some (.dead, i) →
      ascii ['b'] ∈ (observed acts).server.ring.nodes ∨ ascii ['b'] ∈ (observed acts).wired.conns →
      (∃ i, (observed acts).swim.m.view (ascii ['b']) = some (.dead, i)) ∧
        ¬ (observed acts).Agrees := by
    intro acts i hv hx
    refine ⟨⟨i, hv⟩, not_agrees ?_ hv hx⟩
    have hself : (observed acts).swim.m.selfID = ascii ['a'] := run_selfID ..
    rw [hself]
    decide
  refine ⟨fun acts hacts => ?_, by decide +kernel, by decide +kernel, by decide +kernel⟩
  simp only [List.mem_cons, List.not_mem_nil, or_false] at hacts
  rcases hacts with rfl | rfl | rfl
  · exact ⟨by decide +kernel, ⟨by decide +kernel, by decide +kernel, by decide +kernel⟩,
      hdead reversed 0 (by decide +kernel) (Or.inl (by decide +kernel))⟩
  · exact ⟨by decide +kernel, ⟨by decide +kernel, by decide +kernel, by decide +kernel⟩,
      hdead overlapping 0 (by decide +kernel) (Or.inr (by decide +kernel))⟩
  · exact ⟨by decide +kernel, ⟨by decide +kernel, by decide +kernel, by decide +kernel⟩,
      hdead interrupted 1 (by decide +kernel) (Or.inl (by decide +kernel))⟩

end Node

end DistCache
