/-
  What a transition of a SWIM node can do.

  * `Effect`, `step_effect`: the ways a transition can end, with their guards;
    every invariant of the protocol is proved by cases on it;
  * `Sends`, `step_sent`: the messages a transition can send;
  * `run_applies`: an update that nothing interrupts is `applyUpdate`.
-/
import DistCache.Swim
import DistCache.Proof.Membership
import DistCache.Proof.Queue

namespace DistCache

open Lib

namespace Membership

/-! ## Frames -/

theorem stopTimers_eq (m : Membership) (ord : RangeOrder NodeID ℕ) :
    ∃ armed, m.stopTimers ord = { m with armed } := by
  unfold stopTimers
  generalize ord.list m.suspicionTimers = l
  induction l generalizing m with
  | nil => exact ⟨m.armed, rfl⟩
  | cons e l ih =>
    obtain ⟨armed, h⟩ := ih (m.stopTimer e.1)
    exact ⟨armed, h⟩

theorem fire_eq (m : Membership) (t : ℕ) :
    ∃ armed fired, m.fire t = { m with armed, fired } := by
  unfold fire
  split
  · exact ⟨m.armed, m.fired, rfl⟩
  · exact ⟨_, _, rfl⟩

theorem handleAck_eq (m : Membership) (msg : SwimMessage) :
    ∃ pendingAcks closed, m.handleAck msg = { m with pendingAcks, closed } := by
  unfold handleAck
  split
  · exact ⟨m.pendingAcks, m.closed, rfl⟩
  · exact ⟨_, _, rfl⟩

end Membership

theorem Recv.isWaiting_after (update : MembershipUpdate) (rest : List MembershipUpdate)
    (msg : SwimMessage) (remote : UDPAddr) (todo : Option Membership.Todo) :
    (Recv.after update rest msg remote todo).isWaiting = false := by
  cases todo <;> rfl

/-- The updates of the message in hand that are applied now or later. -/
def Recv.updates : Recv → List MembershipUpdate
  | .applying rest _ _ => rest
  | .updating _ update rest _ _ => update :: rest
  | _ => []

theorem Recv.updates_after {update u : MembershipUpdate} {rest : List MembershipUpdate}
    {msg : SwimMessage} {remote : UDPAddr} {todo : Option Membership.Todo}
    (hu : u ∈ (Recv.after update rest msg remote todo).updates) : u ∈ update :: rest := by
  cases todo with
  | none => exact List.mem_cons_of_mem update hu
  | some todo => exact hu

namespace Swim

/-! ## The outcomes of a transition -/

section
variable (resolve : GoString → Option UDPAddr) (s : Swim)

/-- The ways a transition of `s` can end. -/
inductive Effect : Act → Swim → Prop
  | same (a : Act) : Effect a s
  | arrive (d : Datagram) : Effect (.arrive d) { s with socket := s.socket ++ [d] }
  | drop {d : Datagram} {socket : List Datagram} : s.socket = d :: socket →
      Effect .read { s with socket }
  | read {d : Datagram} {socket : List Datagram} : s.recv = .reading → s.socket = d :: socket →
      Effect .read { s with socket, recv := .applying d.msg.updates d.msg d.addr }
  | apply {update : MembershipUpdate} {rest : List MembershipUpdate} {msg : SwimMessage}
      {remote : UDPAddr} : s.recv = .applying (update :: rest) msg remote →
      Effect .apply { s with
        m := (s.m.beginUpdate update).1
        recv := .after update rest msg remote (s.m.beginUpdate update).2 }
  | resume {todo : Membership.Todo} {update : MembershipUpdate} {rest : List MembershipUpdate}
      {msg : SwimMessage} {remote : UDPAddr} : s.recv = .updating todo update rest msg remote →
      ¬ (todo.isLocked ∧ s.ping.isMarking) →
      Effect .resume { s with
        m := (s.m.resumeUpdate update todo).1
        recv := .after update rest msg remote (s.m.resumeUpdate update todo).2 }
  | ping {ord : RangeOrder NodeID NodeInfo} {msg : SwimMessage} {remote : UDPAddr} :
      s.recv = .applying [] msg remote →
      Effect (.dispatch ord) { s with
        m := s.m.drainUpdates.2
        recv := .reading
        sent := s.sent ++ [⟨remote, s.m.message .ack [] s.m.drainUpdates.1⟩] }
  | ack {ord : RangeOrder NodeID NodeInfo} {msg : SwimMessage} {remote : UDPAddr} :
      s.recv = .applying [] msg remote →
      Effect (.dispatch ord) { s with m := s.m.handleAck msg, recv := .reading }
  | pingReq {ord : RangeOrder NodeID NodeInfo} {msg : SwimMessage} {remote : UDPAddr}
      {info : NodeInfo} {udpAddr : UDPAddr} : s.recv = .applying [] msg remote →
      Effect (.dispatch ord) { s with
        m := (s.m.expectAck msg.targetID).drainUpdates.2
        recv := .waiting msg.targetID info.addrs.gossipAddr s.m.nextChan remote
        sent := s.sent ++ [⟨udpAddr, s.m.message .ping [] s.m.drainUpdates.1⟩] }
  | join {ord : RangeOrder NodeID NodeInfo} {msg : SwimMessage} {remote : UDPAddr} :
      s.recv = .applying [] msg remote →
      Effect (.dispatch ord) { s with
        recv := .reading
        sent := s.sent ++ [s.m.handleJoin ord remote] }
  | ignore {ord : RangeOrder NodeID NodeInfo} {msg : SwimMessage} {remote : UDPAddr} :
      s.recv = .applying [] msg remote → Effect (.dispatch ord) { s with recv := .reading }
  | relay {targetID : NodeID} {targetAddr : GoString} {ch : ℕ} {remote : UDPAddr} :
      s.recv = .waiting targetID targetAddr ch remote → ch ∈ s.m.closed →
      Effect .recvAck { s with
        recv := .reading
        sent := s.sent ++ [⟨remote, ⟨.ack, targetID, targetAddr, [], s.m.incarnation, []⟩⟩] }
  | recvTimeout {targetID : NodeID} {targetAddr : GoString} {ch : ℕ} {remote : UDPAddr} :
      s.recv = .waiting targetID targetAddr ch remote →
      Effect .recvTimeout { s with m := s.m.giveUp targetID, recv := .reading }
  | recvStop {recv : Recv} : s.recv.isWaiting ∨ s.recv = .reading →
      recv = .reading ∨ recv = .exited → Effect .recvStop { s with recv }
  | tick {ord : RangeOrder NodeID NodeInfo} {i : ℕ} {target : NodeInfo} {udpAddr : UDPAddr} :
      s.ping = .idle → target ∈ s.m.candidates ord →
      Effect (.tick ord i) { s with
        m := (s.m.expectAck target.id).drainUpdates.2
        ping := .direct target.id s.m.nextChan
        sent := s.sent ++ [⟨udpAddr, s.m.message .ping [] s.m.drainUpdates.1⟩] }
  | pingReqs {ord : RangeOrder NodeID NodeInfo} {shuffle : Shuffle} {targetID : NodeID}
      {ds : List Datagram} : s.ping = .probing targetID →
      (∀ d ∈ ds, d.msg = s.m.message .pingReq targetID []) →
      Effect (.pingReqs ord shuffle) { s with
        m := s.m.expectAck targetID
        ping := .indirect targetID s.m.nextChan
        sent := s.sent ++ ds }
  | pingMove (a : Act) {ping : Ping} : ¬ s.ping.isMarking → ¬ ping.isMarking →
      Effect a { s with ping }
  | pingTimeout (targetID : NodeID) {ping : Ping} : ¬ s.ping.isMarking → ¬ ping.isMarking →
      Effect .pingTimeout { s with m := s.m.giveUp targetID, ping }
  | suspect {targetID : NodeID} : s.ping = .suspecting targetID → s.m.canSuspect targetID →
      Effect .suspect { s with ping := .marking targetID }
  | mark {targetID : NodeID} : s.ping = .marking targetID →
      Effect .mark { s with m := s.m.setSuspect targetID, ping := .idle }
  | fire (t : ℕ) : Effect (.fire t) { s with m := s.m.fire t }
  | callback (nodeID : NodeID) : ¬ s.ping.isMarking →
      Effect (.callback nodeID) { s with m := s.m.callback nodeID }
  | inject (injector : Option FaultInjector) :
      Effect (.inject injector) { s with m := { s.m with injector } }
  | joinCluster (seedAddrs : List GoString) :
      Effect (.joinCluster seedAddrs) { s with
        sent := s.sent ++ s.m.joinCluster resolve seedAddrs }
  | leave : Effect .leave { s with m := s.m.leave }
  | stop : Effect .stop { s with stopped := true }
  | halt (ord : RangeOrder NodeID ℕ) : Effect (.halt ord) { s with m := s.m.stopTimers ord }

theorem sendPing_eq_some {m m' : Membership} {addr : GoString} {targetID : NodeID} {ch : ℕ}
    {d : Datagram} (h : m.sendPing resolve addr targetID = some (ch, m', d)) :
    ∃ udpAddr, resolve addr = some udpAddr ∧ ch = m.nextChan ∧
      m' = (m.expectAck targetID).drainUpdates.2 ∧
      d = ⟨udpAddr, m.message .ping [] m.drainUpdates.1⟩ := by
  unfold Membership.sendPing at h
  split_ifs at h
  split at h
  · cases h
  · rename_i udpAddr hres
    cases h
    exact ⟨udpAddr, hres, rfl, rfl, rfl⟩

theorem sendPingReqs_eq_some {m m' : Membership} {ord : RangeOrder NodeID NodeInfo}
    {shuffle : Shuffle} {targetID : NodeID} {ch : ℕ} {ds : List Datagram}
    (h : m.sendPingReqs resolve ord shuffle targetID = some (ch, m', ds)) :
    ch = m.nextChan ∧ m' = m.expectAck targetID ∧
      ∀ d ∈ ds, d.msg = m.message .pingReq targetID [] := by
  unfold Membership.sendPingReqs at h
  split_ifs at h
  cases h
  refine ⟨rfl, rfl, fun d hd => ?_⟩
  obtain ⟨proxy, -, hproxy⟩ := List.mem_filterMap.1 hd
  split_ifs at hproxy
  obtain ⟨udpAddr, -, rfl⟩ := Option.map_eq_some_iff.1 hproxy
  rfl

theorem dispatch_effect (ord : RangeOrder NodeID NodeInfo) :
    Effect resolve s (.dispatch ord) (s.dispatch resolve ord) := by
  unfold dispatch
  split
  · rename_i msg remote hrecv
    split
    · exact .ping hrecv
    · exact .ack hrecv
    · unfold handlePingReq
      split
      · exact .ignore hrecv
      · split
        · exact .ignore hrecv
        · rename_i ch m d hsend
          obtain ⟨udpAddr, -, rfl, rfl, rfl⟩ := sendPing_eq_some resolve hsend
          exact .pingReq hrecv
    · exact .join hrecv
    · exact .ignore hrecv
  · exact .same _

theorem read_effect : Effect resolve s .read s.read := by
  unfold read
  split
  · rename_i d socket hrecv hsocket
    split_ifs
    · exact .drop hsocket
    · exact .read hrecv hsocket
  · exact .same _

theorem resume_effect : Effect resolve s .resume s.resume := by
  unfold resume
  split
  · rename_i hrecv
    split_ifs with hlock
    · exact .same _
    · exact .resume hrecv hlock
  · exact .same _

theorem recvAck_effect : Effect resolve s .recvAck s.recvAck := by
  unfold recvAck
  split
  · rename_i hrecv
    split_ifs with hch
    · exact .relay hrecv hch
    · exact .same _
  · exact .same _

theorem recvStop_effect : Effect resolve s .recvStop s.recvStop := by
  unfold recvStop
  split_ifs
  · split
    · rename_i hrecv
      exact .recvStop (Or.inl (by rw [hrecv]; rfl)) (Or.inl rfl)
    · rename_i hrecv
      exact .recvStop (Or.inr hrecv) (Or.inr rfl)
    · exact .same _
  · exact .same _

/-- The ping loop does not hold the lock where it waits. -/
theorem Effect.move {ping ping' : Ping} (a : Act) (hping : s.ping = ping)
    (hfree : ping.isMarking = false) (hfree' : ping'.isMarking = false) :
    Effect resolve s a { s with ping := ping' } :=
  .pingMove a (by simp [hping, hfree]) (by simp [hfree'])

theorem tick_effect (ord : RangeOrder NodeID NodeInfo) (i : ℕ) :
    Effect resolve s (.tick ord i) (s.tick resolve ord i) := by
  unfold tick
  split
  · rename_i target hping htarget
    split
    · exact .move resolve s _ hping rfl rfl
    · rename_i ch m d hsend
      obtain ⟨udpAddr, -, rfl, rfl, rfl⟩ := sendPing_eq_some resolve hsend
      exact .tick hping (List.mem_of_getElem? htarget)
  · exact .same _

theorem pingReqs_effect (ord : RangeOrder NodeID NodeInfo) (shuffle : Shuffle) :
    Effect resolve s (.pingReqs ord shuffle) (s.pingReqs resolve ord shuffle) := by
  unfold pingReqs
  split
  · rename_i targetID hping
    split
    · exact .move resolve s _ hping rfl rfl
    · rename_i ch m ds hsend
      obtain ⟨rfl, rfl, hds⟩ := sendPingReqs_eq_some resolve hsend
      exact .pingReqs hping hds
  · exact .same _

theorem pingAck_effect : Effect resolve s .pingAck s.pingAck := by
  unfold pingAck
  split
  · rename_i hping
    split_ifs
    · exact .move resolve s _ hping rfl rfl
    · exact .same _
  · rename_i hping
    split_ifs
    · exact .move resolve s _ hping rfl rfl
    · exact .same _
  · exact .same _

theorem pingTimeout_effect : Effect resolve s .pingTimeout s.pingTimeout := by
  unfold pingTimeout
  split
  · rename_i hping
    exact .pingTimeout _ (by rw [hping]; exact Bool.false_ne_true) Bool.false_ne_true
  · rename_i hping
    exact .pingTimeout _ (by rw [hping]; exact Bool.false_ne_true) Bool.false_ne_true
  · exact .same _

theorem pingStop_effect : Effect resolve s .pingStop s.pingStop := by
  unfold pingStop
  split_ifs
  · split
    · rename_i hping
      exact .move resolve s _ hping rfl rfl
    · rename_i hping
      exact .move resolve s _ hping rfl rfl
    · rename_i hping
      exact .move resolve s _ hping rfl rfl
    · exact .same _
  · exact .same _

theorem suspect_effect : Effect resolve s .suspect s.suspect := by
  unfold suspect
  split
  · rename_i hping
    split_ifs with hcan
    · exact .suspect hping hcan
    · exact .move resolve s _ hping rfl rfl
  · exact .same _

theorem step_effect (a : Act) : Effect resolve s a (s.step resolve a) := by
  cases a with
  | arrive d => exact .arrive d
  | read => exact read_effect resolve s
  | apply =>
    unfold step apply
    dsimp only
    split
    · rename_i hrecv
      exact .apply hrecv
    · exact .same _
  | resume => exact resume_effect resolve s
  | dispatch ord => exact dispatch_effect resolve s ord
  | recvAck => exact recvAck_effect resolve s
  | recvTimeout =>
    unfold step recvTimeout
    dsimp only
    split
    · rename_i hrecv
      exact .recvTimeout hrecv
    · exact .same _
  | recvStop => exact recvStop_effect resolve s
  | tick ord i => exact tick_effect resolve s ord i
  | pingReqs ord shuffle => exact pingReqs_effect resolve s ord shuffle
  | pingAck => exact pingAck_effect resolve s
  | pingTimeout => exact pingTimeout_effect resolve s
  | pingStop => exact pingStop_effect resolve s
  | suspect => exact suspect_effect resolve s
  | mark =>
    unfold step mark
    dsimp only
    split
    · rename_i hping
      exact .mark hping
    · exact .same _
  | fire t => exact .fire t
  | callback nodeID =>
    unfold step callback
    dsimp only
    split_ifs with hlock
    · exact .same _
    · exact .callback nodeID hlock
  | inject injector => exact .inject injector
  | joinCluster seedAddrs => exact .joinCluster seedAddrs
  | leave => exact .leave
  | stop => exact .stop
  | halt ord =>
    unfold step halt
    dsimp only
    split_ifs
    · exact .halt ord
    · exact .same _

/-! ## Messages sent -/

/-- The updates a node can put into a message: those it has queued, its records, and its
    own ALIVE update. -/
inductive Known (m : Membership) : MembershipUpdate → Prop
  | queued {q : QueuedUpdate} : q ∈ m.updateQueue → Known m q.update
  | record {x : NodeID} {info : NodeInfo} : m.registry.lookup x = some info → Known m info.update
  | self : Known m m.selfAlive

/-- The messages a transition of `s` can send: an ack of its own only if it does not wait
    in `handlePingReq`, and the ack of a target whose channel is closed. -/
inductive Sends : SwimMessage → Prop
  | own {type : MessageType} {targetID : NodeID} {updates : List MembershipUpdate} :
      (type = .ack → s.recv.isWaiting = false) → (∀ u ∈ updates, Known s.m u) →
      Sends (s.m.message type targetID updates)
  | relay {targetID : NodeID} {targetAddr : GoString} {ch : ℕ} {remote : UDPAddr} :
      s.recv = .waiting targetID targetAddr ch remote → ch ∈ s.m.closed →
      Sends ⟨.ack, targetID, targetAddr, [], s.m.incarnation, []⟩

theorem known_drained {m : Membership} : ∀ u ∈ m.drainUpdates.1, Known m u :=
  (Membership.drainUpdates_queued fun _ hq => .queued hq).1

theorem known_records {m : Membership} (ord : RangeOrder NodeID NodeInfo) :
    ∀ u ∈ (m.getAll ord).map NodeInfo.update, Known m u := by
  intro u hu
  obtain ⟨info, hinfo, rfl⟩ := List.mem_map.1 hu
  obtain ⟨e, he, rfl⟩ := List.mem_map.1 hinfo
  rw [← Multiset.mem_coe, ord.entries] at he
  exact .record (Finmap.lookup_eq_some_iff.2 he)

theorem step_sent (a : Act) :
    ∃ ds, (s.step resolve a).sent = s.sent ++ ds ∧ ∀ d ∈ ds, Sends s d.msg := by
  have heff := step_effect resolve s a
  have hnil : ∃ ds, s.sent = s.sent ++ ds ∧ ∀ d ∈ ds, Sends s d.msg :=
    ⟨[], (List.append_nil _).symm, fun d hd => absurd hd List.not_mem_nil⟩
  have hone : ∀ d : Datagram, Sends s d.msg →
      ∃ ds, s.sent ++ [d] = s.sent ++ ds ∧ ∀ d ∈ ds, Sends s d.msg :=
    fun d hd => ⟨[d], rfl, fun d' hd' => List.mem_singleton.1 hd' ▸ hd⟩
  generalize s.step resolve a = s' at heff ⊢
  cases heff with
  | ping hrecv => exact hone _ (.own (fun _ => by rw [hrecv]; rfl) known_drained)
  | pingReq hrecv => exact hone _ (.own (fun h => nomatch h) known_drained)
  | join hrecv => exact hone _ (.own (fun _ => by rw [hrecv]; rfl) (known_records _))
  | relay hrecv hch => exact hone _ (.relay hrecv hch)
  | tick _ htarget => exact hone _ (.own (fun h => nomatch h) known_drained)
  | @pingReqs ord shuffle targetID ds hping hds =>
    refine ⟨ds, rfl, fun d hd => ?_⟩
    rw [hds d hd]
    exact .own (fun h => nomatch h) fun u hu => absurd hu List.not_mem_nil
  | joinCluster seedAddrs =>
    refine ⟨_, rfl, fun d hd => ?_⟩
    obtain ⟨addr, -, haddr⟩ := List.mem_filterMap.1 hd
    obtain ⟨udpAddr, -, rfl⟩ := Option.map_eq_some_iff.1 haddr
    exact .own (fun h => nomatch h) fun u hu => List.mem_singleton.1 hu ▸ .self
  | _ => exact hnil

/-- The updates in hand come from a message in the socket. -/
theorem step_updates (a : Act) {u : MembershipUpdate} (hu : u ∈ (s.step resolve a).recv.updates) :
    u ∈ s.recv.updates ∨ ∃ d ∈ s.socket, u ∈ d.msg.updates := by
  have heff := step_effect resolve s a
  generalize s.step resolve a = s' at heff hu
  cases heff with
  | @read d socket _ hs => exact Or.inr ⟨d, hs ▸ List.mem_cons_self, hu⟩
  | apply hrecv => exact Or.inl (by rw [hrecv]; exact Recv.updates_after hu)
  | resume hrecv => exact Or.inl (by rw [hrecv]; exact Recv.updates_after hu)
  | recvStop _ hr => rcases hr with rfl | rfl <;> cases hu
  | ping | ack | pingReq | join | ignore | relay | recvTimeout => cases hu
  | _ => exact Or.inl hu

theorem step_selfID (a : Act) : (s.step resolve a).m.selfID = s.m.selfID := by
  have heff := step_effect resolve s a
  generalize s.step resolve a = s' at heff ⊢
  cases heff with
  | apply => exact Membership.beginUpdate_selfID ..
  | resume => exact Membership.resumeUpdate_selfID ..
  | @ack _ msg =>
    obtain ⟨_, _, h⟩ := s.m.handleAck_eq msg
    dsimp only
    rw [h]
  | mark => exact Membership.setSuspect_selfID ..
  | fire t => exact s.m.fire_selfID t
  | callback x => exact s.m.callback_selfID x
  | halt ord =>
    obtain ⟨_, h⟩ := s.m.stopTimers_eq ord
    dsimp only
    rw [h]
  | _ => rfl

/-! ## Updates without interruption -/

/-- The receive loop applies the next update of a message: the sections of `applyUpdate`
    one after the other. -/
def applies : List Act := [.apply, .resume, .resume, .resume]

/-- **The sections of an update that nothing interrupts make up `applyUpdate`.** -/
theorem run_applies {update : MembershipUpdate} {rest : List MembershipUpdate}
    {msg : SwimMessage} {remote : UDPAddr} (hrecv : s.recv = .applying (update :: rest) msg remote)
    (hping : ¬ s.ping.isMarking) :
    run (step resolve) s applies =
      { s with m := s.m.applyUpdate update, recv := .applying rest msg remote } := by
  -- one `resume` does a section if there is one left, and nothing otherwise
  have hresume : ∀ (n : ℕ) (r : Membership × Option Membership.Todo),
      run (step resolve) { s with m := r.1, recv := .after update rest msg remote r.2 }
          (List.replicate n .resume) =
        { s with
          m := ((Membership.nextSection update)^[n] r).1
          recv := .after update rest msg remote ((Membership.nextSection update)^[n] r).2 } := by
    intro n
    induction n with
    | zero => intro r; rfl
    | succ n ih =>
      rintro ⟨m, todo⟩
      cases todo with
      | none => exact ih (m, none)
      | some todo =>
        rw [List.replicate_succ, run_cons]
        have : step resolve { s with m, recv := .updating todo update rest msg remote } .resume =
            { s with
              m := (m.resumeUpdate update todo).1
              recv := .after update rest msg remote (m.resumeUpdate update todo).2 } := by
          simp [step, resume, hping]
        exact (congrArg (fun s => run (step resolve) s (List.replicate n .resume)) this).trans
          (ih (m.resumeUpdate update todo))
  have happly : step resolve s .apply =
      { s with
        m := (s.m.beginUpdate update).1
        recv := .after update rest msg remote (s.m.beginUpdate update).2 } := by
    simp [step, apply, hrecv]
  have h := hresume 3 (s.m.beginUpdate update)
  rw [Membership.resume_applyUpdate] at h
  exact (congrArg (fun s => run (step resolve) s (List.replicate 3 .resume)) happly).trans h

end

end Swim

end DistCache
