/-
  The pending acks of a node, and which probe an ack decides.

  `sendPingAndWait` and `sendPingReqs` register the channel they wait on under the target,
  `handleAck` closes the channel registered under the sender, and a wait that times out
  deletes whatever is registered under its target.  So `pendingAcks` is a table with one
  slot for every target (`step_probed`), shared by all probes of the target: those of the
  ping loop, and those the receive loop does for other nodes.  A channel leaves the table when
  it is closed, so it is closed at most once (`acks_closed_once`).
-/
import DistCache.Proof.Relay

namespace DistCache

open Lib

namespace Membership

/-! ## The pending acks -/

/-- What happens to the pending acks: a probe of a target begins to wait, an ack is handled,
    whoever sent it and when, or a wait for a target times out. -/
inductive AckEvent where
  | probe (targetID : NodeID)
  | ack (msg : SwimMessage)
  | timeout (targetID : NodeID)

def ackStep (m : Membership) : AckEvent → Membership
  | .probe targetID => m.expectAck targetID
  | .ack msg => m.handleAck msg
  | .timeout targetID => m.giveUp targetID

/-- The channel that `handleAck` closes. -/
def ackCloses (m : Membership) : AckEvent → Option ℕ
  | .ack msg => m.pendingAcks.lookup msg.senderID
  | _ => none

/-- The pending channels are open, and each is pending for one target. -/
structure AcksOpen (m : Membership) : Prop where
  isOpen : ∀ x ch, m.pendingAcks.lookup x = some ch → ch ∉ m.closed
  inj : ∀ x y ch, m.pendingAcks.lookup x = some ch → m.pendingAcks.lookup y = some ch → x = y

/-- The operations on the table of slots decide what is pending and what is closed. -/
theorem closed_of_slots {m : Membership} {ops : List (SlotOp NodeID)} {closed : List ℕ}
    (hm : m.slots = run Slots.step .empty ops) (hclosed : closed = Slots.closings .empty ops) :
    m.AcksOpen ∧ closed.Nodup ∧ ∀ ch, ch ∈ m.closed ↔ ch ∈ closed := by
  subst hclosed
  have hwf : m.slots.Wf := hm ▸ Slots.wf_empty.run ops
  refine ⟨⟨hwf.isOpen, hwf.inj⟩, (Slots.wf_empty.closings_nodup ops).1, fun ch => ?_⟩
  have hmem : ch ∈ m.slots.closed ↔ ch ∈ (∅ : Finset ℕ) ∨ ch ∈ Slots.closings .empty ops := by
    rw [hm]
    exact Slots.mem_closed_run .empty ops
  exact hmem.trans (or_iff_right (Finset.notMem_empty ch))

def AckEvent.slotOp : AckEvent → SlotOp NodeID
  | .probe targetID => .register targetID
  | .ack msg => .signal msg.senderID
  | .timeout targetID => .clear targetID

theorem slots_ackStep (m : Membership) (e : AckEvent) :
    (m.ackStep e).slots = m.slots.step e.slotOp := by
  cases e with
  | ack msg => exact m.slots_handleAck msg
  | probe targetID | timeout targetID => rfl

theorem ackCloses_eq (m : Membership) (e : AckEvent) : m.ackCloses e = m.slots.closes e.slotOp := by
  cases e <;> rfl

end Membership

namespace Swim

/-- The loops that probe. -/
inductive Loop where
  | receive
  | ping

/-- The target of the probe a loop waits for, and the channel it waits on. -/
def waits (s : Swim) : Loop → Option (NodeID × ℕ)
  | .receive =>
    match s.recv with
    | .waiting targetID _ ch _ => some (targetID, ch)
    | _ => none
  | .ping =>
    match s.ping with
    | .direct targetID ch | .indirect targetID ch => some (targetID, ch)
    | _ => none

/-- The transition in which a wait ends by an ack, and the probe returns true. -/
def Loop.acked : Loop → Act
  | .receive => .recvAck
  | .ping => .pingAck

section
variable (resolve : GoString → Option UDPAddr)

/-- What a transition does to the pending acks. -/
def probeOp (s : Swim) : Act → Option (SlotOp NodeID)
  | .dispatch _ =>
    match s.recv with
    | .applying [] msg _ =>
      match msg.type with
      | .ack => some (.signal msg.senderID)
      | .pingReq =>
        (s.m.registry.lookup msg.targetID).bind fun targetInfo =>
          (s.m.sendPing resolve targetInfo.addrs.gossipAddr msg.targetID).map fun _ =>
            .register msg.targetID
      | _ => none
    | _ => none
  | .recvTimeout =>
    match s.recv with
    | .waiting targetID _ _ _ => some (.clear targetID)
    | _ => none
  | .tick ord i =>
    match s.ping, (s.m.candidates ord)[i]? with
    | .idle, some target =>
      (s.m.sendPing resolve target.addrs.gossipAddr target.id).map fun _ => .register target.id
    | _, _ => none
  | .pingReqs ord shuffle =>
    match s.ping with
    | .probing targetID =>
      (s.m.sendPingReqs resolve ord shuffle targetID).map fun _ => .register targetID
    | _ => none
  | .pingTimeout =>
    match s.ping with
    | .direct targetID _ | .indirect targetID _ => some (.clear targetID)
    | _ => none
  | _ => none

/-- What a run does to the pending acks, in order. -/
def probeOps (s : Swim) (as : List Act) : List (SlotOp NodeID) :=
  (outputs (step resolve) (probeOp resolve) s as).reduceOption

/-- A transition from `s` to `s'` that does an operation on the pending acks, or none; the loop
    that registers a channel waits on it. -/
structure Probed (s : Swim) (op : Option (SlotOp NodeID)) (s' : Swim) : Prop where
  slots : s'.m.slots = run Slots.step s.m.slots op.toList
  waits : ∀ x, op = some (.register x) → ∃ l, s'.waits l = some (x, s.m.nextChan)

theorem Probed.of_chans {s s' : Swim} (h : s'.m.chans = s.m.chans) : Probed s none s' :=
  ⟨Membership.slots_congr h, fun _ hop => nomatch hop⟩

section
variable (s : Swim)

theorem handlePingReq_probed (msg : SwimMessage) (remote : UDPAddr) :
    Probed s ((s.m.registry.lookup msg.targetID).bind fun targetInfo =>
      (s.m.sendPing resolve targetInfo.addrs.gossipAddr msg.targetID).map fun _ =>
        .register msg.targetID) (s.handlePingReq resolve msg remote) := by
  unfold handlePingReq
  cases s.m.registry.lookup msg.targetID with
  | none => exact .of_chans rfl
  | some info =>
    rw [Option.bind_some]
    cases hsend : s.m.sendPing resolve info.addrs.gossipAddr msg.targetID with
    | none => simpa only [hsend] using .of_chans rfl
    | some r =>
      obtain ⟨ch, m, d⟩ := r
      obtain ⟨_, -, rfl, rfl, -⟩ := sendPing_eq_some resolve hsend
      simp only [hsend]
      refine ⟨rfl, fun x hop => ⟨.receive, ?_⟩⟩
      cases hop
      rfl

theorem dispatch_probed (ord : RangeOrder NodeID NodeInfo) :
    Probed s (probeOp resolve s (.dispatch ord)) (s.dispatch resolve ord) := by
  unfold dispatch probeOp
  cases s.recv with
  | applying rest msg remote =>
    cases rest with
    | nil =>
      dsimp only
      cases msg.type with
      | ack => exact ⟨s.m.slots_handleAck msg, fun _ hop => nomatch hop⟩
      | pingReq => exact handlePingReq_probed resolve s msg remote
      | ping | join | unknown => exact .of_chans rfl
    | cons update rest => exact .of_chans rfl
  | reading | updating | waiting | exited => exact .of_chans rfl

theorem tick_probed (ord : RangeOrder NodeID NodeInfo) (i : ℕ) :
    Probed s (probeOp resolve s (.tick ord i)) (s.tick resolve ord i) := by
  unfold tick probeOp
  dsimp only
  cases s.ping with
  | idle =>
    cases (s.m.candidates ord)[i]? with
    | none => exact .of_chans rfl
    | some target =>
      dsimp only
      cases hsend : s.m.sendPing resolve target.addrs.gossipAddr target.id with
      | none => exact .of_chans rfl
      | some r =>
        obtain ⟨ch, m, d⟩ := r
        obtain ⟨_, -, rfl, rfl, -⟩ := sendPing_eq_some resolve hsend
        refine ⟨rfl, fun x hop => ⟨.ping, ?_⟩⟩
        cases hop
        rfl
  | _ => exact .of_chans rfl

theorem pingReqs_probed (ord : RangeOrder NodeID NodeInfo) (shuffle : Shuffle) :
    Probed s (probeOp resolve s (.pingReqs ord shuffle)) (s.pingReqs resolve ord shuffle) := by
  unfold pingReqs probeOp
  cases s.ping with
  | probing targetID =>
    dsimp only
    cases hsend : s.m.sendPingReqs resolve ord shuffle targetID with
    | none => exact .of_chans rfl
    | some r =>
      obtain ⟨ch, m, ds⟩ := r
      obtain ⟨rfl, rfl, -⟩ := sendPingReqs_eq_some resolve hsend
      refine ⟨rfl, fun x hop => ⟨.ping, ?_⟩⟩
      cases hop
      rfl
  | _ => exact .of_chans rfl

/-- **The pending acks are a table of slots**: a transition does one operation on it, or none. -/
theorem step_probed (a : Act) : Probed s (probeOp resolve s a) (s.step resolve a) := by
  have heff := step_effect resolve s a
  cases a with
  | dispatch ord => exact dispatch_probed resolve s ord
  | tick ord i => exact tick_probed resolve s ord i
  | pingReqs ord shuffle => exact pingReqs_probed resolve s ord shuffle
  | recvTimeout =>
    unfold step recvTimeout probeOp
    cases s.recv with
    | waiting targetID => exact ⟨rfl, fun _ hop => nomatch hop⟩
    | _ => exact .of_chans rfl
  | pingTimeout =>
    unfold step pingTimeout probeOp
    cases s.ping with
    | direct targetID | indirect targetID => exact ⟨rfl, fun _ hop => nomatch hop⟩
    | _ => exact .of_chans rfl
  | arrive | inject | joinCluster | leave | stop => exact .of_chans rfl
  | fire t => exact .of_chans (s.m.chans_fire t)
  | apply =>
    refine .of_chans ?_
    generalize s.step resolve .apply = s' at heff ⊢
    cases heff with
    | apply => exact Membership.chans_beginUpdate ..
    | same | pingMove => rfl
  | resume =>
    refine .of_chans ?_
    generalize s.step resolve .resume = s' at heff ⊢
    cases heff with
    | resume => exact Membership.chans_resumeUpdate ..
    | same | pingMove => rfl
  | mark =>
    refine .of_chans ?_
    generalize s.step resolve .mark = s' at heff ⊢
    cases heff with
    | mark => exact Membership.chans_setSuspect ..
    | same | pingMove => rfl
  | callback x =>
    refine .of_chans ?_
    generalize s.step resolve (.callback x) = s' at heff ⊢
    cases heff with
    | callback => exact Membership.chans_callback ..
    | same | pingMove => rfl
  | halt ord =>
    refine .of_chans ?_
    generalize s.step resolve (.halt ord) = s' at heff ⊢
    cases heff with
    | halt => exact Membership.chans_stopTimers ..
    | same | pingMove => rfl
  | read | recvAck | recvStop | pingAck | pingStop | suspect =>
    refine .of_chans ?_
    generalize s.step resolve _ = s' at heff ⊢
    cases heff <;> rfl

end

/-- The channel that `handleAck` closes in a transition. -/
def closes (s : Swim) : Act → Option ℕ
  | .dispatch _ =>
    match s.recv with
    | .applying [] msg _ => if msg.type = .ack then s.m.pendingAcks.lookup msg.senderID else none
    | _ => none
  | _ => none

/-- A probe that begins to wait closes nothing. -/
theorem register_closes {α : Type} (t : Slots NodeID) (p : Option α) (x : NodeID) :
    (p.map fun _ => SlotOp.register x).bind t.closes = none := by
  cases p <;> rfl

theorem closes_eq (s : Swim) (a : Act) :
    s.closes a = (probeOp resolve s a).bind s.m.slots.closes := by
  unfold closes probeOp
  cases a with
  | dispatch ord =>
    cases s.recv with
    | applying rest msg remote =>
      cases rest with
      | nil =>
        dsimp only
        cases msg.type with
        | pingReq =>
          dsimp only
          cases s.m.registry.lookup msg.targetID with
          | none => rfl
          | some info => exact (register_closes s.m.slots _ _).symm
        | ping | ack | join | unknown => rfl
      | cons update rest => rfl
    | reading | updating | waiting | exited => rfl
  | recvTimeout => cases s.recv <;> rfl
  | pingTimeout => cases s.ping <;> rfl
  | tick ord i =>
    dsimp only
    split
    · exact (register_closes s.m.slots _ _).symm
    · rfl
  | pingReqs ord shuffle =>
    dsimp only
    split
    · exact (register_closes s.m.slots _ _).symm
    · rfl
  | _ => rfl

/-- What a run does to the table of slots, and which channels it closes. -/
theorem run_probed (s : Swim) (as : List Act) :
    (run (step resolve) s as).m.slots = run Slots.step s.m.slots (probeOps resolve s as) ∧
      (outputs (step resolve) closes s as).reduceOption =
        Slots.closings s.m.slots (probeOps resolve s as) :=
  run_stutters (f := fun s => s.m.slots) (fun s a => (step_probed resolve s a).slots)
    (closes_eq resolve) s as

theorem run_slots (s : Swim) (as : List Act) :
    (run (step resolve) s as).m.slots = run Slots.step s.m.slots (probeOps resolve s as) :=
  (run_probed resolve s as).1

/-- Whatever the probes and acks of a run, the pending channels are open, and no channel is
    pending for two targets. -/
theorem run_slots_wf (selfID : NodeID) (addrs : Addrs) (injector : Option FaultInjector)
    (as : List Act) : (run (step resolve) (start selfID addrs injector) as).m.slots.Wf := by
  rw [run_slots]
  exact Slots.wf_empty.run _

/-- **A pending channel is closed at most once.**  Let probes register their channels, acks
    be handled and waits time out, in any order: the pending channels are always open, each is
    pending for one target, and the channels that `handleAck` has closed are all different.
    So it is in every run of a node. -/
theorem acks_closed_once (selfID : NodeID) (addrs : Addrs) (injector : Option FaultInjector) :
    (∀ events : List Membership.AckEvent,
      let m₀ := Membership.start selfID addrs injector
      let m := run Membership.ackStep m₀ events
      let closed := (outputs Membership.ackStep Membership.ackCloses m₀ events).reduceOption
      m.AcksOpen ∧ closed.Nodup ∧ ∀ ch, ch ∈ m.closed ↔ ch ∈ closed) ∧
    ∀ as : List Act,
      let s₀ := start selfID addrs injector
      let s := run (step resolve) s₀ as
      let closed := (outputs (step resolve) closes s₀ as).reduceOption
      s.m.AcksOpen ∧ closed.Nodup ∧ ∀ ch, ch ∈ s.m.closed ↔ ch ∈ closed := by
  constructor
  · intro events m₀ m closed
    obtain ⟨hm, hclosed⟩ := run_refines (I := fun _ => True) (f := Membership.slots)
      (fun _ _ _ => trivial) (fun m e _ => m.slots_ackStep e) (fun m e _ => m.ackCloses_eq e)
      trivial events (s := m₀)
    exact Membership.closed_of_slots hm (congrArg List.reduceOption hclosed)
  · intro as s₀ s closed
    obtain ⟨hm, hclosed⟩ := run_probed resolve s₀ as
    exact Membership.closed_of_slots hm hclosed

/-! ## Probes -/

/-- A probe returns true exactly if its channel is closed. -/
theorem acked_iff {s : Swim} {l : Loop} {x : NodeID} {ch : ℕ} (h : s.waits l = some (x, ch)) :
    (s.step resolve l.acked).waits l = none ↔ ch ∈ s.m.closed := by
  cases l with
  | receive =>
    unfold waits at h
    cases hrecv : s.recv with
    | waiting targetID targetAddr ch' remote =>
      simp only [hrecv, Option.some.injEq, Prod.mk.injEq] at h
      obtain ⟨rfl, rfl⟩ := h
      simp only [Loop.acked, step, recvAck, hrecv]
      split_ifs with hch <;> simp [waits, hrecv, hch]
    | _ => simp [hrecv] at h
  | ping =>
    unfold waits at h
    cases hping : s.ping with
    | direct targetID ch' | indirect targetID ch' =>
      simp only [hping, Option.some.injEq, Prod.mk.injEq] at h
      obtain ⟨rfl, rfl⟩ := h
      simp only [Loop.acked, step, pingAck, hping]
      split_ifs with hch <;> simp [waits, hping, hch]
    | _ => simp [hping] at h

/-- **When a probe gets its ack.**  Let a transition `a` of a run register a probe of `x`; a loop
    then waits on its channel.  Whatever happens next, if acks of `x` are handled and the loop still
    waits, then the probe returns true if and only if before the first of these acks no other
    probe of `x` was registered and none timed out. -/
theorem probe_acked_iff (selfID : NodeID) (addrs : Addrs) (injector : Option FaultInjector)
    (before : List Act) (a : Act) (x : NodeID) (s : Swim)
    (hs : s = run (step resolve) (start selfID addrs injector) before)
    (hreg : probeOp resolve s a = some (.register x)) :
    (∃ l, (s.step resolve a).waits l = some (x, s.m.nextChan)) ∧
      ∀ (after : List Act) (s' : Swim) (l : Loop),
        s' = run (step resolve) (s.step resolve a) after →
        s'.waits l = some (x, s.m.nextChan) →
        .signal x ∈ probeOps resolve (s.step resolve a) after →
        ((s'.step resolve l.acked).waits l = none ↔
          ∀ op ∈ (probeOps resolve (s.step resolve a) after).takeWhile (· ≠ .signal x),
            op.key ≠ x) := by
  have hprobed := step_probed resolve s a
  rw [hreg] at hprobed
  refine ⟨hprobed.waits x rfl, fun after s' l hs' hwait hack => ?_⟩
  have hwf : s.m.slots.Wf := hs ▸ run_slots_wf resolve selfID addrs injector before
  have hclosed : s'.m.closed = (run Slots.step (s.m.slots.step (.register x))
      (probeOps resolve (s.step resolve a) after)).closed := by
    have hslots : (s.step resolve a).m.slots = s.m.slots.step (.register x) := hprobed.slots
    rw [← hslots, ← run_slots, ← hs']
    rfl
  have hslot : (s.m.slots.step (.register x)).slot.lookup x = some s.m.nextChan :=
    s.m.slots.lookup_step_self (.register x)
  rw [acked_iff resolve hwait, hclosed, ← SlotOp.find?_eq_signal_iff hack]
  exact Slots.closed_run_iff (hwf.step _) hslot _

end

/-- The records of the helper `h` that has learned of `t`. -/
def helperRecords : List (Σ _ : NodeID, NodeInfo) :=
  [⟨ascii ['h'], .new (ascii ['h']) ⟨[], ascii ['h'], []⟩⟩,
    ⟨ascii ['t'], .new (ascii ['t']) ⟨[], ascii ['t'], []⟩⟩]

/-- The helper pings `t` itself, before it handles the ping-req, and gets its ack. -/
theorem probe_acked_first :
    ((run (step some) (start (ascii ['h']) ⟨[], ascii ['h'], []⟩ none)
      (probe.take 6 ++ [.tick (.listing helperRecords) 0, .arrive targetAck, .read,
        .dispatch default, .pingAck])).waits .ping) = none :=
  ((probe_acked_iff some (ascii ['h']) ⟨[], ascii ['h'], []⟩ none (probe.take 6)
    (.tick (.listing helperRecords) 0) (ascii ['t']) _ rfl (by decide +kernel)).2
    [.arrive targetAck, .read, .dispatch default] _ .ping rfl (by decide +kernel)
    (by decide +kernel)).2 (by decide +kernel)

/-- **A responsive node is suspected.**  The helper waits for `t` on behalf of `r`; its ping loop
    pings `t` too, on a channel of its own.  The first wait times out, and deletes what the ping
    loop has registered.  The ack of `t` is handled while the ping loop waits, but its probe does
    not return true, and `t` is marked as suspect. -/
theorem probe_loses_ack :
    let s := helper.step some (.dispatch default)
    let a := Act.tick (.listing helperRecords) 0
    let after := [.arrive targetAck, .recvTimeout, .read, .dispatch default]
    let s' := run (step some) (s.step some a) after
    s.waits .receive = some (ascii ['t'], 0) ∧
      probeOp some s a = some (.register (ascii ['t'])) ∧
      probeOps some (s.step some a) after = [.clear (ascii ['t']), .signal (ascii ['t'])] ∧
      s'.waits .ping = some (ascii ['t'], 1) ∧
      (s'.step some .pingAck).waits .ping = some (ascii ['t'], 1) ∧
      (run (step some) s' [.pingTimeout,
        .pingReqs (.listing helperRecords) ⟨id, fun _ => .refl _⟩, .suspect, .mark]).m.view
        (ascii ['t']) = some (.suspect, 0) := by
  decide +kernel

end Swim

end DistCache
