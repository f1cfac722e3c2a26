/-
  Indirect probes are never answered.

  A helper waits for the ack of the target inside `handlePingReq`, which the
  receive loop runs; but acks are handled by the receive loop, and only there are
  channels closed.  So the channel a helper waits on stays open (`ChanInv.waiting`),
  the wait always ends without an ack, and the only acks a node ever sends name
  the node itself (`acks_own`).
-/
import DistCache.Lib.Slots
import DistCache.Proof.Swim
import DistCache.Proof.Store

namespace DistCache

open Lib

namespace Membership

/-! ## Channels -/

/-- The ack channels of a node. -/
def chans (m : Membership) : GoMap NodeID ℕ × ℕ × Finset ℕ := (m.pendingAcks, m.nextChan, m.closed)

section
variable (m : Membership) (x : NodeID)

theorem chans_beginUpdate (u : MembershipUpdate) : (m.beginUpdate u).1.chans = m.chans := by
  have h := beginUpdate_begins m u
  generalize m.beginUpdate u = r at h ⊢
  cases h <;> rfl

theorem chans_resumeUpdate (u : MembershipUpdate) (todo : Todo) :
    (m.resumeUpdate u todo).1.chans = m.chans := by
  have h := resumeUpdate_resumes m u todo
  generalize m.resumeUpdate u todo = r at h ⊢
  cases h <;> rfl

theorem chans_setSuspect : (m.setSuspect x).chans = m.chans := by
  rcases m.setSuspect_cases x with ⟨h, -⟩ | ⟨info, -, h⟩
  · rw [h]
  · rw [h]; rfl

theorem chans_markDead : (m.markDead x).chans = m.chans := by
  rcases m.markDead_cases x with ⟨h, -⟩ | ⟨info, -, -, h⟩
  · rw [h]
  · rw [h]; rfl

theorem chans_fire (t : ℕ) : (m.fire t).chans = m.chans := by
  obtain ⟨_, _, h⟩ := m.fire_eq t
  rw [h]; rfl

theorem chans_callback : (m.callback x).chans = m.chans := by
  unfold callback
  split_ifs
  · exact chans_markDead _ _
  · rfl

theorem chans_stopTimers (ord : RangeOrder NodeID ℕ) : (m.stopTimers ord).chans = m.chans := by
  obtain ⟨armed, h⟩ := m.stopTimers_eq ord
  rw [h]; rfl

end

/-- The ack channels as a table of slots. -/
def slots (m : Membership) : Slots NodeID := ⟨m.pendingAcks, m.nextChan, m.closed⟩

theorem slots_congr {m m' : Membership} (h : m'.chans = m.chans) : m'.slots = m.slots := by
  simp only [chans, Prod.mk.injEq] at h
  simp only [slots, h]

theorem slots_handleAck (m : Membership) (msg : SwimMessage) :
    (m.handleAck msg).slots = m.slots.step (.signal msg.senderID) := by
  unfold handleAck Slots.step
  dsimp only [slots]
  cases m.pendingAcks.lookup msg.senderID <;> rfl

end Membership

namespace Swim

/-- Channels are created in order, and the one `handlePingReq` waits on is open. -/
structure ChanInv (s : Swim) : Prop where
  closed : ∀ ch ∈ s.m.closed, ch < s.m.nextChan
  pending : ∀ x ch, s.m.pendingAcks.lookup x = some ch → ch < s.m.nextChan
  waiting : ∀ targetID targetAddr ch remote, s.recv = .waiting targetID targetAddr ch remote →
    ch < s.m.nextChan ∧ ch ∉ s.m.closed

section
variable {s s' : Swim} (h : ChanInv s)
include h

theorem ChanInv.of_chans (hm : s'.m.chans = s.m.chans)
    (hr : s'.recv.isWaiting = true → s'.recv = s.recv) : ChanInv s' := by
  simp only [Membership.chans, Prod.mk.injEq] at hm
  obtain ⟨h1, h2, h3⟩ := hm
  refine ⟨?_, ?_, fun targetID targetAddr ch remote hw => ?_⟩
  · rw [h2, h3]; exact h.closed
  · rw [h1, h2]; exact h.pending
  · rw [h2, h3]
    refine h.waiting targetID targetAddr ch remote ?_
    rw [← hr (by rw [hw]; rfl), hw]

/-- An operation on the pending acks: the receive loop does not wait while an ack is handled, and
    starts to wait on a new channel only. -/
theorem ChanInv.of_slots (op : SlotOp NodeID) (hm : s'.m.slots = s.m.slots.step op)
    (hr : ∀ targetID targetAddr ch remote, s'.recv = .waiting targetID targetAddr ch remote →
      op ≠ .signal op.key ∧ (s'.recv = s.recv ∨ ch = s.m.nextChan ∧ ch < s'.m.nextChan)) :
    ChanInv s' := by
  have hnext : s.m.nextChan ≤ s'.m.nextChan := by
    have hle := s.m.slots.next_le_step op
    rwa [← hm] at hle
  have hclosed : ∀ ch, ch ∈ s'.m.closed ↔
      ch ∈ s.m.closed ∨ op = .signal op.key ∧ s.m.pendingAcks.lookup op.key = some ch := by
    intro ch
    have hiff : ch ∈ (s.m.slots.step op).closed ↔ _ := s.m.slots.mem_closed_step op
    rwa [← hm] at hiff
  refine ⟨fun ch hch => ?_, fun x ch hx => ?_, fun targetID targetAddr ch remote hw => ?_⟩
  · rcases (hclosed ch).1 hch with hch | ⟨-, hch⟩
    · exact (h.closed ch hch).trans_le hnext
    · exact (h.pending _ ch hch).trans_le hnext
  · have hx' : (s.m.slots.step op).slot.lookup x = some ch := hm ▸ hx
    rcases s.m.slots.of_lookup_step op hx' with ⟨hx, -⟩ | ⟨rfl, rfl⟩
    · exact (h.pending x ch hx).trans_le hnext
    · have hsucc : s'.m.slots.next = s.m.nextChan + 1 := by rw [hm]; rfl
      exact (Nat.lt_succ_self _).trans_eq hsucc.symm
  · obtain ⟨hop, hr⟩ := hr targetID targetAddr ch remote hw
    rw [hclosed]
    rcases hr with hr | ⟨rfl, hlt⟩
    · obtain ⟨hlt, hopen⟩ := h.waiting targetID targetAddr ch remote (hr ▸ hw)
      exact ⟨hlt.trans_le hnext, fun hc => hc.elim hopen fun hs => hop hs.1⟩
    · exact ⟨hlt, fun hc => hc.elim (fun hmem => lt_irrefl _ (h.closed _ hmem)) fun hs => hop hs.1⟩

theorem ChanInv.step (resolve : GoString → Option UDPAddr) (a : Act) :
    ChanInv (s.step resolve a) := by
  have heff := step_effect resolve s a
  generalize s.step resolve a = s' at heff ⊢
  cases heff with
  | same | arrive | drop | pingMove | suspect | joinCluster | stop | inject =>
    exact h.of_chans rfl fun _ => rfl
  | read | ping | join | ignore | relay => exact h.of_chans rfl fun hw => nomatch hw
  | @apply u _ _ _ hrecv =>
    refine h.of_chans (s.m.chans_beginUpdate u) fun hw => ?_
    rw [Recv.isWaiting_after] at hw
    cases hw
  | @resume todo u _ _ _ hrecv =>
    refine h.of_chans (s.m.chans_resumeUpdate u todo) fun hw => ?_
    rw [Recv.isWaiting_after] at hw
    cases hw
  | ack hrecv => exact h.of_slots (.signal _) (s.m.slots_handleAck _) fun _ _ _ _ hw => nomatch hw
  | @pingReq _ msg =>
    refine h.of_slots (.register msg.targetID) rfl fun _ _ _ _ hw => ⟨nofun, Or.inr ?_⟩
    cases hw
    exact ⟨rfl, Nat.lt_succ_self _⟩
  | @recvTimeout targetID =>
    exact h.of_slots (.clear targetID) rfl fun _ _ _ _ hw => nomatch hw
  | recvStop _ hr =>
    refine h.of_chans rfl fun hw => ?_
    rcases hr with rfl | rfl <;> cases hw
  | @tick _ _ target => exact h.of_slots (.register target.id) rfl fun _ _ _ _ _ => ⟨nofun, Or.inl rfl⟩
  | @pingReqs _ _ targetID =>
    exact h.of_slots (.register targetID) rfl fun _ _ _ _ _ => ⟨nofun, Or.inl rfl⟩
  | pingTimeout targetID =>
    exact h.of_slots (.clear targetID) rfl fun _ _ _ _ _ => ⟨nofun, Or.inl rfl⟩
  | mark => exact h.of_chans (Membership.chans_setSuspect ..) fun _ => rfl
  | fire => exact h.of_chans (Membership.chans_fire ..) fun _ => rfl
  | callback => exact h.of_chans (Membership.chans_callback ..) fun _ => rfl
  | leave => exact h.of_chans rfl fun _ => rfl
  | halt => exact h.of_chans (Membership.chans_stopTimers ..) fun _ => rfl

end

theorem start_chanInv (selfID : NodeID) (addrs : Addrs) (injector : Option FaultInjector) :
    ChanInv (start selfID addrs injector) where
  closed ch hch := absurd hch (Finset.notMem_empty ch)
  pending x ch hx := by
    have hnone : (start selfID addrs injector).m.pendingAcks.lookup x = none := Finmap.lookup_empty x
    rw [hnone] at hx
    cases hx
  waiting _ _ _ _ hw := nomatch hw

/-! ## Acks -/

section
variable (resolve : GoString → Option UDPAddr)

/-- A channel that is waited on is open, so what a node sends is its own. -/
theorem ChanInv.sends_own {s : Swim} (h : ChanInv s) {msg : SwimMessage} (hmsg : Sends s msg) :
    msg.senderID = s.m.selfID ∧ (msg.type = .ack → s.recv.isWaiting = false) := by
  cases hmsg with
  | own hack hu => exact ⟨rfl, hack⟩
  | relay hrecv hch => exact absurd hch (h.waiting _ _ _ _ hrecv).2

theorem run_chanInv {s : Swim} (h : ChanInv s) (as : List Act) :
    ChanInv (run (step resolve) s as) :=
  run_inv (fun _ a hs => hs.step resolve a) h as

/-- All a node sends names the node itself. -/
theorem run_sent_own {s : Swim} (h : ChanInv s)
    (hs : ∀ d ∈ s.sent, d.msg.senderID = s.m.selfID) (as : List Act) :
    ∀ d ∈ (run (step resolve) s as).sent, d.msg.senderID = s.m.selfID := by
  refine (run_inv (I := fun s' : Swim => ChanInv s' ∧ s'.m.selfID = s.m.selfID ∧
    ∀ d ∈ s'.sent, d.msg.senderID = s.m.selfID) ?_ ⟨h, rfl, hs⟩ as).2.2
  rintro s' a ⟨hc, hself, hsent⟩
  refine ⟨hc.step resolve a, (step_selfID resolve s' a).trans hself, fun d hd => ?_⟩
  obtain ⟨ds, he, hds⟩ := step_sent resolve s' a
  rw [he] at hd
  rcases List.mem_append.1 hd with hd | hd
  · exact hsent d hd
  · exact (hc.sends_own (hds d hd)).1.trans hself

/-- While the receive loop waits, no ack is sent. -/
theorem run_waiting_sent {s : Swim} (h : ChanInv s) {as : List Act}
    (hw : Along (step resolve) (fun s _ => s.recv.isWaiting = true) s as) :
    ∃ ds, (run (step resolve) s as).sent = s.sent ++ ds ∧ ∀ d ∈ ds, d.msg.type ≠ .ack := by
  induction as generalizing s with
  | nil => exact ⟨[], (List.append_nil _).symm, fun d hd => absurd hd List.not_mem_nil⟩
  | cons a as ih =>
    obtain ⟨ds, he, hds⟩ := step_sent resolve s a
    obtain ⟨ds', he', hds'⟩ := ih (h.step resolve a) hw.2
    refine ⟨ds ++ ds', by rw [run_cons, he', he, List.append_assoc], fun d hd hack => ?_⟩
    rcases List.mem_append.1 hd with hd | hd
    · -- an ack of the first step would come from a loop that does not wait
      have hidle := (h.sends_own (hds d hd)).2 hack
      rw [hw.1] at hidle
      cases hidle
    · exact hds' d hd hack

/-- The helper pings a target it knows, and waits. -/
theorem dispatch_pingReq {s : Swim} {msg : SwimMessage} {remote : UDPAddr}
    (hrecv : s.recv = .applying [] msg remote) (htype : msg.type = .pingReq)
    {info : NodeInfo} {udpAddr : UDPAddr} (hl : s.m.registry.lookup msg.targetID = some info)
    (hb : s.m.isBlocked msg.targetID = false)
    (hres : resolve info.addrs.gossipAddr = some udpAddr) (ord : RangeOrder NodeID NodeInfo) :
    (s.step resolve (.dispatch ord)).recv =
        .waiting msg.targetID info.addrs.gossipAddr s.m.nextChan remote ∧
      (s.step resolve (.dispatch ord)).sent =
        s.sent ++ [⟨udpAddr, s.m.message .ping [] s.m.drainUpdates.1⟩] := by
  simp only [step, dispatch, hrecv, htype, handlePingReq, hl, Membership.sendPing, hb, hres]
  exact ⟨rfl, rfl⟩

theorem dispatch_pingReq_sent {s : Swim} {msg : SwimMessage} {remote : UDPAddr}
    (hrecv : s.recv = .applying [] msg remote) (htype : msg.type = .pingReq)
    (ord : RangeOrder NodeID NodeInfo) :
    ∃ ds, (s.step resolve (.dispatch ord)).sent = s.sent ++ ds ∧ ∀ d ∈ ds, d.msg.type ≠ .ack := by
  simp only [step, dispatch, hrecv, htype, handlePingReq]
  split
  · exact ⟨[], (List.append_nil _).symm, fun d hd => absurd hd List.not_mem_nil⟩
  · split
    · exact ⟨[], (List.append_nil _).symm, fun d hd => absurd hd List.not_mem_nil⟩
    · rename_i hsend
      obtain ⟨udpAddr, -, -, -, rfl⟩ := sendPing_eq_some resolve hsend
      refine ⟨_, rfl, fun d hd => ?_⟩
      rw [List.mem_singleton.1 hd]
      intro hack
      cases hack

/-- **No ack is relayed.**  When the receive loop of a node, in any run, comes to handle a
    ping-req, it pings a target that it knows and may reach, and waits; but whatever
    happens until the handling has ended, the ack of the target reaching the socket
    included, no ack is sent, and in no continuation of the run does the node send an
    ack that names another node. -/
theorem ack_never_relayed (selfID : NodeID) (addrs : Addrs) (injector : Option FaultInjector)
    (before : List Act) (msg : SwimMessage) (remote : UDPAddr) (ord : RangeOrder NodeID NodeInfo)
    (hrecv : (run (step resolve) (start selfID addrs injector) before).recv =
      .applying [] msg remote)
    (htype : msg.type = .pingReq) :
    let s := run (step resolve) (start selfID addrs injector) before
    let s' := s.step resolve (.dispatch ord)
    (∀ info udpAddr, s.m.registry.lookup msg.targetID = some info →
        s.m.isBlocked msg.targetID = false → resolve info.addrs.gossipAddr = some udpAddr →
        (∃ ch, s'.recv = .waiting msg.targetID info.addrs.gossipAddr ch remote) ∧
          ∃ updates, s'.sent = s.sent ++ [⟨udpAddr, s.m.message .ping [] updates⟩]) ∧
      (∀ after, Along (step resolve) (fun s _ => s.recv.isWaiting = true) s' after →
        ∃ ds, (run (step resolve) s' after).sent = s.sent ++ ds ∧ ∀ d ∈ ds, d.msg.type ≠ .ack) ∧
      ∀ after, ∀ d ∈ (run (step resolve) s' after).sent, d.msg.senderID = selfID := by
  intro s s'
  have hinv : ChanInv s := run_chanInv resolve (start_chanInv selfID addrs injector) before
  refine ⟨fun info udpAddr hl hb hres => ?_, fun after hw => ?_, fun after d hd => ?_⟩
  · obtain ⟨hr, hs⟩ := dispatch_pingReq resolve hrecv htype hl hb hres ord
    exact ⟨⟨_, hr⟩, _, hs⟩
  · obtain ⟨ds, he, hds⟩ := dispatch_pingReq_sent resolve hrecv htype ord
    obtain ⟨ds', he', hds'⟩ := run_waiting_sent resolve (hinv.step resolve (.dispatch ord)) hw
    refine ⟨ds ++ ds', by rw [he', he, List.append_assoc], fun d hd => ?_⟩
    rcases List.mem_append.1 hd with hd | hd
    · exact hds d hd
    · exact hds' d hd
  · have hown := run_sent_own resolve (start_chanInv selfID addrs injector)
      (fun d hd => absurd hd List.not_mem_nil) (before ++ .dispatch ord :: after)
    rw [run_append, run_cons] at hown
    exact hown d hd

end

/-- A helper `h` that has learned of `t` handles a ping-req of `r` for `t`. -/
noncomputable def probe : List Act :=
  [.arrive ⟨ascii ['t'], ⟨.ack, ascii ['t'], ascii ['t'], [], 0,
      [⟨ascii ['t'], ⟨[], ascii ['t'], []⟩, .alive, 0⟩]⟩⟩,
    .read, .apply, .resume, .resume, .dispatch default,
    .arrive ⟨ascii ['r'], ⟨.pingReq, ascii ['r'], ascii ['r'], ascii ['t'], 0, []⟩⟩, .read]

noncomputable def helper : Swim :=
  run (step some) (start (ascii ['h']) ⟨[], ascii ['h'], []⟩ none) probe

/-- The ack of `t` to the helper. -/
def targetAck : Datagram := ⟨ascii ['t'], ⟨.ack, ascii ['t'], ascii ['t'], [], 0, []⟩⟩

theorem ack_never_relayed_helper :
    ∃ ds, (run (step some) (helper.step some (.dispatch default))
      [.arrive targetAck, .recvTimeout]).sent = helper.sent ++ ds ∧ ∀ d ∈ ds, d.msg.type ≠ .ack :=
  (ack_never_relayed some (ascii ['h']) ⟨[], ascii ['h'], []⟩ none probe
    ⟨.pingReq, ascii ['r'], ascii ['r'], ascii ['t'], 0, []⟩ (ascii ['r']) default rfl rfl).2.1
    [.arrive targetAck, .recvTimeout] ⟨rfl, rfl, trivial⟩

/-- The helper pings `t` and waits; the ack of `t` arrives before the timeout and stays in
    the socket, and the helper has sent nothing but the ping. -/
theorem ack_lost :
    (helper.step some (.dispatch default)).recv =
      .waiting (ascii ['t']) (ascii ['t']) 0 (ascii ['r']) ∧
    (run (step some) (helper.step some (.dispatch default))
      [.arrive targetAck, .recvAck, .recvTimeout]).recv = .reading ∧
    (run (step some) (helper.step some (.dispatch default))
      [.arrive targetAck, .recvAck, .recvTimeout]).socket = [targetAck] ∧
    (run (step some) (helper.step some (.dispatch default))
      [.arrive targetAck, .recvAck, .recvTimeout]).sent.map (fun d => (d.addr, d.msg.type)) =
      [(ascii ['t'], .ping)] := by
  decide

end Swim

end DistCache
