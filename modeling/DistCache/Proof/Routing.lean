/-
  Who is in the rings, and where the connections lead.

  Gossip that is not forged starts from what the nodes say about themselves: every update is about
  a node that was started, and an ALIVE update carries the addresses of this node (`Vouched`).  So
  do the records, and the callbacks take the members of the ring and the addresses of the
  connections from these.
-/
import DistCache.Proof.Numbering

namespace DistCache

open Lib

section
variable (addrs : NodeID → Addrs) (K : NodeID → Prop)

/-- The update is about a node that is known, and an ALIVE update has its addresses. -/
def MembershipUpdate.Vouched (u : MembershipUpdate) : Prop :=
  K u.nodeID ∧ (u.status = .alive → u.addrs = addrs u.nodeID)

/-- The updates of the message are vouched for. -/
def SwimMessage.Vouched (msg : SwimMessage) : Prop := ∀ u ∈ msg.updates, u.Vouched addrs K

/-- The records of a node are of known nodes, with their addresses, and its queue is vouched
    for. -/
structure Membership.Vouched (m : Membership) : Prop where
  self : K m.selfID
  own : m.addrs = addrs m.selfID
  records : ∀ y info, m.registry.lookup y = some info → info.id = y ∧ K y ∧ info.addrs = addrs y
  queue : ∀ q ∈ m.updateQueue, q.update.Vouched addrs K

/-- So are the messages that it has received and sent. -/
structure Swim.Vouched (s : Swim) : Prop where
  m : s.m.Vouched addrs K
  socket : ∀ d ∈ s.socket, d.msg.Vouched addrs K
  recv : ∀ u ∈ s.recv.updates, u.Vouched addrs K
  sent : ∀ d ∈ s.sent, d.msg.Vouched addrs K

end

section
variable {addrs : NodeID → Addrs} {K : NodeID → Prop}

theorem vouched_report {y : NodeID} {status : NodeStatus} {i : UInt64} (hy : K y)
    (hs : status ≠ .alive) : (MembershipUpdate.report y status i).Vouched addrs K :=
  ⟨hy, fun h => absurd h hs⟩

/-! ## The membership state -/

namespace Membership

variable {m m' : Membership}

theorem Vouched.selfAlive (h : m.Vouched addrs K) : m.selfAlive.Vouched addrs K :=
  ⟨h.self, fun _ => h.own⟩

theorem Vouched.coalesce (h : m.Vouched addrs K) {u : MembershipUpdate} (hu : u.Vouched addrs K) :
    ∀ q ∈ Membership.coalesce u m.updateQueue, q.update.Vouched addrs K := by
  intro q hq
  rcases mem_coalesce hq with hq | hq
  · rw [hq]
    exact hu
  · exact h.queue q hq

/-- The record of `x` was written. -/
theorem Vouched.write (h : m.Vouched addrs K) {x : NodeID} {info : NodeInfo}
    (hr : m'.registry = m.registry.insert x info) (hid : info.id = x) (hx : K x)
    (haddr : info.addrs = addrs x) (hq : ∀ q ∈ m'.updateQueue, q.update.Vouched addrs K)
    (hs : m'.selfID = m.selfID) (ha : m'.addrs = m.addrs) : m'.Vouched addrs K where
  self := hs ▸ h.self
  own := by
    rw [ha, hs]
    exact h.own
  records y info' hl := by
    rw [hr] at hl
    by_cases hy : y = x
    · subst hy
      rw [Finmap.lookup_insert] at hl
      obtain rfl := Option.some.inj hl
      exact ⟨hid, hx, haddr⟩
    · rw [Finmap.lookup_insert_of_ne _ hy] at hl
      exact h.records y info' hl
  queue := hq

/-- The status or the incarnation of `x` was written. -/
theorem Vouched.rewrite (h : m.Vouched addrs K) {x : NodeID} {info : NodeInfo}
    (hl : m.registry.lookup x = some info) (status : NodeStatus) (i : UInt64)
    (hr : m'.registry = m.registry.insert x { info with status, incarnation := i })
    (hq : ∀ q ∈ m'.updateQueue, q.update.Vouched addrs K)
    (hs : m'.selfID = m.selfID) (ha : m'.addrs = m.addrs) : m'.Vouched addrs K := by
  obtain ⟨hid, hx, haddr⟩ := h.records x info hl
  exact h.write hr hid hx haddr hq hs ha

theorem Vouched.beginUpdate (h : m.Vouched addrs K) {u : MembershipUpdate}
    (hu : u.Vouched addrs K) : (m.beginUpdate u).1.Vouched addrs K := by
  have hb := beginUpdate_begins m u
  generalize m.beginUpdate u = r at hb ⊢
  cases hb with
  | same | suspect | dead => exact h
  | refute hself hs =>
    have hbump : ∀ i, ({ m with incarnation := i } : Membership).Vouched addrs K :=
      fun _ => ⟨h.self, h.own, h.records, h.queue⟩
    exact ⟨h.self, h.own, h.records, h.coalesce (hbump _).selfAlive⟩
  | join hself hl hs => exact h.write rfl rfl hu.1 (hu.2 hs) h.queue rfl rfl
  | @alive info hself hl => exact h.rewrite hl .alive info.incarnation rfl h.queue rfl rfl
  | @left info hself hl => exact h.rewrite hl .left info.incarnation rfl h.queue rfl rfl

theorem Vouched.resumeUpdate (h : m.Vouched addrs K) {u : MembershipUpdate}
    (hu : u.Vouched addrs K) (todo : Todo) : (m.resumeUpdate u todo).1.Vouched addrs K := by
  have hr := resumeUpdate_resumes m u todo
  generalize m.resumeUpdate u todo = r at hr ⊢
  cases hr with
  | gone => exact h
  | join | cancel | emit => exact ⟨h.self, h.own, h.records, h.queue⟩
  | queue => exact ⟨h.self, h.own, h.records, h.coalesce hu⟩
  | @stamp info hl => exact h.rewrite hl info.status u.incarnation rfl h.queue rfl rfl
  | @suspect info hl => exact h.rewrite hl .suspect info.incarnation rfl h.queue rfl rfl
  | @bury info hl => exact h.rewrite hl .dead info.incarnation rfl h.queue rfl rfl

theorem Vouched.setSuspect (h : m.Vouched addrs K) (x : NodeID) :
    (m.setSuspect x).Vouched addrs K := by
  rcases m.setSuspect_cases x with ⟨he, -⟩ | ⟨info, hl, he⟩
  · rw [he]
    exact h
  · rw [he]
    exact h.rewrite hl .suspect info.incarnation rfl
      (h.coalesce (vouched_report (h.records x info hl).2.1 (by simp))) rfl rfl

theorem Vouched.markDead (h : m.Vouched addrs K) (x : NodeID) : (m.markDead x).Vouched addrs K := by
  rcases m.markDead_cases x with ⟨he, -⟩ | ⟨info, hl, -, he⟩
  · rw [he]
    exact h
  · rw [he]
    exact h.rewrite hl .dead info.incarnation rfl
      (h.coalesce (vouched_report (h.records x info hl).2.1 (by simp))) rfl rfl

theorem Vouched.callback (h : m.Vouched addrs K) (x : NodeID) : (m.callback x).Vouched addrs K := by
  have herase : ({ m with fired := m.fired.erase x } : Membership).Vouched addrs K :=
    ⟨h.self, h.own, h.records, h.queue⟩
  unfold Membership.callback
  split_ifs
  · exact herase.markDead x
  · exact h

theorem Vouched.leave (h : m.Vouched addrs K) : m.leave.Vouched addrs K := by
  have hq := h.coalesce (vouched_report (i := m.incarnation) h.self (by simp : NodeStatus.left ≠ .alive))
  cases hl : m.registry.lookup m.selfID with
  | none =>
    have hreg : m.leave.registry = m.registry := by simp [Membership.leave, queueUpdate, hl]
    exact ⟨h.self, h.own, hreg ▸ h.records, hq⟩
  | some info =>
    have hreg : m.leave.registry = m.registry.insert m.selfID { info with status := .left } := by
      simp [Membership.leave, queueUpdate, hl]
    exact h.rewrite hl .left info.incarnation hreg hq rfl rfl

theorem Vouched.drain (h : m.Vouched addrs K) : m.drainUpdates.2.Vouched addrs K := by
  refine ⟨h.self, h.own, h.records, fun q hq => ?_⟩
  obtain ⟨q', hq', he⟩ := (mem_drained hq).2
  rw [← he]
  exact h.queue q' hq'

end Membership

/-! ## The loops -/

namespace Swim

variable {s : Swim}

theorem Vouched.known (h : s.Vouched addrs K) {u : MembershipUpdate} (hu : Known s.m u) :
    u.Vouched addrs K := by
  cases hu with
  | queued hq => exact h.m.queue _ hq
  | @record x info hl =>
    obtain ⟨rfl, hx, ha⟩ := h.m.records x info hl
    exact ⟨hx, fun _ => ha⟩
  | self => exact h.m.selfAlive

/-- The messages that a transition sends. -/
theorem Vouched.step_sent (h : s.Vouched addrs K) (resolve : GoString → Option UDPAddr) (a : Act) :
    ∀ d ∈ (s.step resolve a).sent, d.msg.Vouched addrs K := by
  obtain ⟨ds, hsent, hds⟩ := Swim.step_sent resolve s a
  intro d hd
  rw [hsent] at hd
  rcases List.mem_append.1 hd with hd | hd
  · exact h.sent d hd
  · have hsends := hds d hd
    generalize d.msg = msg at hsends ⊢
    cases hsends with
    | own _ hknown => exact fun u hu => h.known (hknown u hu)
    | relay => exact fun u hu => absurd hu List.not_mem_nil

/-- The membership state after a transition. -/
theorem Vouched.step_m (h : s.Vouched addrs K) (resolve : GoString → Option UDPAddr) (a : Act) :
    (s.step resolve a).m.Vouched addrs K := by
  have heff := step_effect resolve s a
  generalize s.step resolve a = s' at heff ⊢
  obtain ⟨hself, hown, hrecords, hqueue⟩ := h.m
  have hexpect : ∀ x, (s.m.expectAck x).Vouched addrs K := fun x => ⟨hself, hown, hrecords, hqueue⟩
  cases heff with
  | apply hrecv => exact h.m.beginUpdate (h.recv _ (by rw [hrecv]; exact List.mem_cons_self))
  | resume hrecv => exact h.m.resumeUpdate (h.recv _ (by rw [hrecv]; exact List.mem_cons_self)) _
  | ping => exact h.m.drain
  | @ack _ msg =>
    obtain ⟨_, _, he⟩ := s.m.handleAck_eq msg
    dsimp only
    rw [he]
    exact ⟨hself, hown, hrecords, hqueue⟩
  | pingReq => exact (hexpect _).drain
  | tick => exact (hexpect _).drain
  | mark => exact h.m.setSuspect _
  | fire t =>
    obtain ⟨_, _, he⟩ := s.m.fire_eq t
    dsimp only
    rw [he]
    exact ⟨hself, hown, hrecords, hqueue⟩
  | callback x => exact h.m.callback x
  | leave => exact h.m.leave
  | halt ord =>
    obtain ⟨_, he⟩ := s.m.stopTimers_eq ord
    dsimp only
    rw [he]
    exact ⟨hself, hown, hrecords, hqueue⟩
  | _ => exact ⟨hself, hown, hrecords, hqueue⟩

theorem Vouched.step (h : s.Vouched addrs K) (resolve : GoString → Option UDPAddr) (a : Act)
    (ha : ∀ d, a = .arrive d → d.msg.Vouched addrs K) : (s.step resolve a).Vouched addrs K where
  m := h.step_m resolve a
  socket := by
    have heff := step_effect resolve s a
    generalize s.step resolve a = s' at heff ⊢
    cases heff with
    | arrive d =>
      intro d' hd'
      rcases List.mem_append.1 hd' with hd' | hd'
      · exact h.socket d' hd'
      · rw [List.mem_singleton.1 hd']
        exact ha d rfl
    | drop hsock => exact fun d hd => h.socket d (hsock ▸ List.mem_cons_of_mem _ hd)
    | read _ hsock => exact fun d hd => h.socket d (hsock ▸ List.mem_cons_of_mem _ hd)
    | _ => exact h.socket
  recv u hu := by
    rcases step_updates resolve s a hu with hu | ⟨d, hd, hu⟩
    · exact h.recv u hu
    · exact h.socket d hd u hu
  sent := h.step_sent resolve a

theorem vouched_start {x : NodeID} (hx : K x) (inj : Option FaultInjector) :
    (Swim.start x (addrs x) inj).Vouched addrs K where
  m :=
    { self := hx
      own := rfl
      records := by
        intro y info hl
        change ((∅ : NodeRegistry).insert x (.new x (addrs x))).lookup y = some info at hl
        by_cases hy : y = x
        · subst hy
          rw [Finmap.lookup_insert] at hl
          obtain rfl := Option.some.inj hl
          exact ⟨rfl, hx, rfl⟩
        · rw [Finmap.lookup_insert_of_ne _ hy, Finmap.lookup_empty] at hl
          cases hl
      queue := by
        intro q hq
        rw [List.mem_singleton.1 hq]
        exact ⟨hx, fun _ => rfl⟩ }
  socket d hd := by cases hd
  recv u hu := by cases hu
  sent d hd := by cases hd

end Swim

/-! ## Nodes -/

end

/-- The ring has known members, the connections lead to the addresses of other known nodes, as do
    those that the callbacks are about to make, and the replication goroutines are meant for such
    nodes. -/
structure Node.Vouched (addrs : NodeID → Addrs) (K : NodeID → Prop) (x : NodeID) (n : Node) :
    Prop where
  swim : n.swim.Vouched addrs K
  selfID : n.swim.m.selfID = x
  nodeID : n.server.nodeID = x
  inv : n.Inv
  ring : ∀ y ∈ n.server.ring.nodes, K y
  mgr : ∃ rm, n.server.replicationMgr = some rm ∧ rm.selfID = x ∧
    ∀ y addr, rm.peerConns.lookup y = some addr → K y ∧ y ≠ x ∧ addr = (addrs y).grpcAddr
  sends : ∀ send ∈ n.sends, K send.nodeID ∧ send.nodeID ≠ x ∧ send.req.sourceNode = x
  running : ∀ cb ∈ n.running, ∀ addr, cb.stage.addr = some addr →
    K cb.event.nodeID ∧ addr = (addrs cb.event.nodeID).grpcAddr

namespace Node

section
variable {addrs : NodeID → Addrs} {K : NodeID → Prop} {x : NodeID} {n : Node}

theorem vouched_start (env : Env) (hx : K x) (inj : Option FaultInjector)
    (vnodeCount replicaCount : ℤ) (maxLoadFactor : ℚ) :
    (start env x (addrs x) inj vnodeCount replicaCount maxLoadFactor).Vouched addrs K x where
  swim := Swim.vouched_start hx inj
  selfID := rfl
  nodeID := rfl
  inv := start_inv ..
  ring y hy := by
    have hnodes := Ring.addNode_nodes env.sort (Ring.new vnodeCount maxLoadFactor) x
    change y ∈ ((Ring.new vnodeCount maxLoadFactor).addNode env.sort x).1.nodes at hy
    rw [hnodes] at hy
    obtain rfl : y = x := by simpa [Ring.new] using hy
    exact hx
  mgr := ⟨_, rfl, rfl, fun y addr hy => by simp [ReplicationManager.new] at hy⟩
  sends send hs := by cases hs
  running cb hcb := by cases hcb

/-- A section of a callback adds a node to the ring, and keeps its address, only if there is a
    record of it. -/
theorem Vouched.section (h : n.Vouched addrs K x) {env : Env} {ord : RangeOrder Key Entry}
    {now : Time} {event : MembershipEvent} {stage : Option Wired.Stage}
    {r : Wired × Option Wired.Stage}
    (heff : Wired.SectionEffect env n.wired ord now event stage r)
    (hstage : ∀ st, stage = some st → ⟨event, st⟩ ∈ n.running) :
    r.1.server.nodeID = x ∧ (∀ y ∈ r.1.server.ring.nodes, K y) ∧
      ∀ addr, r.2.bind Wired.Stage.addr = some addr →
        K event.nodeID ∧ addr = (addrs event.nodeID).grpcAddr := by
  -- the address is the one that the callback had
  have hkept : ∀ {next : Option Wired.Stage}, next.bind Wired.Stage.addr = none ∨
      next.bind Wired.Stage.addr = stage.bind Wired.Stage.addr →
      ∀ addr, next.bind Wired.Stage.addr = some addr →
        K event.nodeID ∧ addr = (addrs event.nodeID).grpcAddr := by
    rintro next (hnext | hnext) addr haddr
    · rw [hnext] at haddr
      cases haddr
    · rw [hnext] at haddr
      obtain ⟨st, hst, ha⟩ := Option.bind_eq_some_iff.1 haddr
      exact h.running _ (hstage st hst) addr ha
  cases heff with
  | idle hnext => exact ⟨h.nodeID, h.ring, hkept hnext⟩
  | @added info next hl hnext =>
    obtain ⟨-, hk, haddrs⟩ := h.swim.m.records event.nodeID info hl
    refine ⟨h.nodeID, fun y hy => ?_, fun addr haddr => ?_⟩
    · change y ∈ (n.server.ring.addNode env.sort event.nodeID).1.nodes at hy
      rw [Ring.addNode_nodes, Finset.mem_insert] at hy
      rcases hy with rfl | hy
      · exact hk
      · exact h.ring y hy
    · obtain rfl := Option.some.inj (hnext.symm.trans haddr)
      exact ⟨hk, by rw [haddrs]⟩
  | removed hnext =>
    refine ⟨h.nodeID, fun y hy => ?_, hkept (Or.inl hnext)⟩
    change y ∈ (n.server.ring.removeNode event.nodeID).1.nodes at hy
    rw [Ring.removeNode_nodes] at hy
    exact h.ring y (Finset.mem_of_mem_erase hy)
  | connected _ _ _ hnext => exact ⟨h.nodeID, h.ring, hkept hnext⟩
  | closed => exact ⟨h.nodeID, h.ring, fun addr ha => by cases ha⟩
  | replicated => exact ⟨h.nodeID, h.ring, fun addr ha => by cases ha⟩

theorem Vouched.step {env : Env} {resolve : GoString → Option UDPAddr} (h : n.Vouched addrs K x)
    (a : Act) (hena : n.Enabled a) (harr : ∀ d, a = .swim (.arrive d) → d.msg.Vouched addrs K) :
    (n.step env resolve a).Vouched addrs K x := by
  obtain ⟨rm, hrm, hself, hconns⟩ := h.mgr
  obtain ⟨conns, rm', sends, hm⟩ := step_manages env resolve hrm a
  have hmgr : ∃ rm, (n.step env resolve a).server.replicationMgr = some rm ∧ rm.selfID = x ∧
      ∀ y addr, rm.peerConns.lookup y = some addr → K y ∧ y ≠ x ∧ addr = (addrs y).grpcAddr := by
    refine ⟨rm', hm.mgr, hm.numbered.selfID_eq.trans hself, fun y addr hy => ?_⟩
    have hpeers : rm'.peerConns = conns := congrArg (·.2.2) hm.numbered.wiring_eq
    rw [hpeers] at hy
    rcases hm.conns y addr hy with hy | ⟨hne, ⟨info, hl, rfl⟩ | ⟨cb, hcb, rfl, haddr⟩⟩
    · exact hconns y addr hy
    · obtain ⟨-, hy, ha⟩ := h.swim.m.records y info hl
      exact ⟨hy, h.nodeID ▸ hne, by rw [ha]⟩
    · obtain ⟨hk, ha⟩ := h.running cb hcb addr haddr
      exact ⟨hk, h.nodeID ▸ hne, ha⟩
  have hsends : ∀ send ∈ (n.step env resolve a).sends,
      K send.nodeID ∧ send.nodeID ≠ x ∧ send.req.sourceNode = x := by
    intro send hs
    rw [hm.sends] at hs
    rcases List.mem_append.1 hs with hs | hs
    · exact h.sends send hs
    · obtain ⟨hmem, hne, hsrc⟩ := hm.numbered.target h.inv.ring send hs
      exact ⟨h.ring _ hmem, hself ▸ hne, hsrc.trans hself⟩
  have hinv : (n.step env resolve a).Inv := Inv.step n a h.inv hena
  have hserver : ∀ {server : CacheServer} {sends : List Send},
      CacheServer.SameWiring n.server server → n.step env resolve a = { n with server, sends } →
      (n.step env resolve a).Vouched addrs K x := by
    intro server sends hw he
    rw [he] at hinv hmgr hsends ⊢
    refine ⟨h.swim, h.selfID, hw.nodeID.trans h.nodeID, hinv, fun y hy => ?_, hmgr, hsends, h.running⟩
    change y ∈ server.ring.nodes at hy
    rw [hw.ring] at hy
    exact h.ring y hy
  cases a with
  | swim a =>
    have hswim := h.swim.step resolve a fun d hd => harr d (hd ▸ rfl)
    exact ⟨hswim, (n.swim.step_selfID resolve a).trans h.selfID, h.nodeID, hinv, h.ring, hmgr, hsends,
      h.running⟩
  | handle event =>
    obtain ⟨w, next, heff, he⟩ := n.handle_section env resolve event default 0
    obtain ⟨hid, hring, haddr⟩ := h.section heff fun st hst => by cases hst
    rw [he] at hinv hmgr hsends ⊢
    refine ⟨h.swim, h.selfID, hid, hinv, hring, hmgr, hsends, fun cb hcb addr ha => ?_⟩
    rcases List.mem_append.1 hcb with hcb | hcb
    · exact h.running cb hcb addr ha
    · obtain ⟨stage, hstage, rfl⟩ := List.mem_map.1 hcb
      exact haddr addr (Option.bind_eq_some_iff.2 ⟨stage, Option.mem_toList.1 hstage, ha⟩)
  | resume i ord now =>
    rcases n.resume_section env resolve i ord now with he | ⟨cb, w, next, hcb, heff, he⟩
    · rwa [he]
    · have hmem := List.mem_of_getElem? hcb
      obtain ⟨hid, hring, haddr⟩ := h.section heff fun st hst => by
        obtain rfl := Option.some.inj hst
        exact hmem
      rw [he] at hinv hmgr hsends ⊢
      refine ⟨h.swim, h.selfID, hid, hinv, hring, hmgr, hsends, fun cb' hcb' addr ha => ?_⟩
      rcases mem_advance hcb' with hcb' | ⟨stage, rfl, rfl⟩
      · exact h.running cb' hcb' addr ha
      · exact haddr addr ha
  | request now req => exact hserver (n.server.handle_sameWiring now req) rfl
  | replicate now req => exact hserver (n.server.replicate_sameWiring now req) rfl

end

end Node

/-! ## The fleet -/

namespace Fleet

variable {env : NodeID → Env} {resolve : GoString → Option UDPAddr} {addrs : NodeID → Addrs}

/-- Everything in the fleet is about nodes in `B`, with their addresses. -/
structure Vouched (addrs : NodeID → Addrs) (B : Finset NodeID) (f : Fleet) : Prop where
  nodes : ∀ x n, f.node x = some n → n.Vouched addrs (· ∈ B) x
  rpcs : ∀ rpc ∈ f.rpcs, ∀ y, rpc.target = some y → y ∈ B ∧ rpc.addr = (addrs y).grpcAddr
  gone : ∀ msg ∈ f.gone, msg.Vouched addrs (· ∈ B)

section
variable {B : Finset NodeID} {f : Fleet}

theorem vouched_empty : empty.Vouched addrs B where
  nodes x n h := by cases h
  rpcs rpc h := by cases h
  gone msg h := by cases h

theorem Vouched.posted (h : f.Vouched addrs B) {msg : SwimMessage} (hm : f.Posted msg) :
    msg.Vouched addrs (· ∈ B) := by
  rcases hm with hm | ⟨y, n, hn, d, hd, rfl⟩
  · exact h.gone msg hm
  · exact (h.nodes y n hn).swim.sent d hd

theorem Vouched.invokePeer (h : f.Vouched addrs B) {x : NodeID} {n : Node} (hn : f.node x = some n)
    {y : NodeID} {call : ServerCall} :
    ∀ rpc ∈ (n.server.invokePeer y call).toList, ∀ z, rpc.target = some z →
      z ∈ B ∧ rpc.addr = (addrs z).grpcAddr := by
  intro rpc hrpc z hz
  obtain ⟨rm, hrm, hconn⟩ := Option.bind_eq_some_iff.1 (Option.mem_toList.1 hrpc)
  obtain ⟨addr, haddr, rfl⟩ := Option.map_eq_some_iff.1 hconn
  obtain rfl : y = z := Option.some.inj hz
  obtain ⟨rm', hrm', -, hconns⟩ := (h.nodes x n hn).mgr
  obtain rfl : rm = rm' := Option.some.inj (hrm.symm.trans hrm')
  obtain ⟨hy, -, ha⟩ := hconns y addr haddr
  exact ⟨hy, ha⟩

theorem Vouched.putNode (h : f.Vouched addrs B) {x : NodeID} {n : Node}
    (hn : n.Vouched addrs (· ∈ B) x) {rpcs : List Envelope}
    (hrpcs : ∀ rpc ∈ rpcs, ∀ y, rpc.target = some y → y ∈ B ∧ rpc.addr = (addrs y).grpcAddr) :
    Vouched addrs B { f.putNode x n with rpcs } where
  nodes y m hm := by
    rcases node_putNode hm with ⟨rfl, rfl⟩ | hm
    · exact hn
    · exact h.nodes y m hm
  rpcs := hrpcs
  gone := h.gone

theorem Vouched.step {a : Act} (h : f.Vouched addrs B) (hena : f.Enabled addrs a)
    (hB : (f.step env resolve addrs a).booted ⊆ B) : (f.step env resolve addrs a).Vouched addrs B := by
  have herase : ∀ i, ∀ rpc ∈ f.rpcs.eraseIdx i, ∀ y, rpc.target = some y →
      y ∈ B ∧ rpc.addr = (addrs y).grpcAddr :=
    fun i rpc hrpc => h.rpcs rpc (List.mem_of_mem_eraseIdx hrpc)
  have heff := step_effect env resolve addrs f a
  generalize f.step env resolve addrs a = f' at heff hB ⊢
  cases heff with
  | same => exact h
  | issue addr req =>
    refine ⟨h.nodes, fun rpc hrpc y hy => ?_, h.gone⟩
    rcases List.mem_append.1 hrpc with hrpc | hrpc
    · exact h.rpcs rpc hrpc y hy
    · rw [List.mem_singleton.1 hrpc] at hy
      cases hy
  | lose i => exact ⟨h.nodes, herase i, h.gone⟩
  | @boot x inj vnodeCount replicaCount maxLoadFactor hx =>
    have hx : x ∈ B := hB (Finset.mem_insert_self x f.booted)
    have hput := h.putNode (Node.vouched_start (K := (· ∈ B)) (env x) hx inj vnodeCount
      replicaCount maxLoadFactor) h.rpcs
    exact ⟨hput.nodes, hput.rpcs, hput.gone⟩
  | @forward x n i now rpc req primary hn hrpc hreq hf =>
    refine ⟨h.nodes, fun rpc' hrpc' => ?_, h.gone⟩
    rcases List.mem_append.1 hrpc' with hrpc' | hrpc'
    · exact herase i rpc' hrpc'
    · exact h.invokePeer hn rpc' hrpc'
  | @answer x n i now rpc req resp sends hn hrpc hreq hh =>
    have hstep : (n.step (env x) resolve (.request now req)).Vouched addrs (· ∈ B) x :=
      (h.nodes x n hn).step _ trivial fun _ he => by cases he
    have hput := h.putNode hstep (herase i)
    exact ⟨hput.nodes, hput.rpcs, hput.gone⟩
  | @replicate x n i now rpc req hn hrpc hreq =>
    exact h.putNode ((h.nodes x n hn).step (.replicate now req) trivial fun _ he => by cases he)
      (herase i)
  | @send x n send hn =>
    obtain ⟨h1, h2, h3, h4, h5, h6, h7, h8⟩ := h.nodes x n hn
    have hsend : Node.Vouched addrs (· ∈ B) x { n with sends := n.sends.erase send } :=
      ⟨h1, h2, h3, ⟨h4.swim, h4.ring, h4.self⟩, h5, h6,
        fun send' hs => h7 send' (List.mem_of_mem_erase hs), h8⟩
    refine h.putNode hsend fun rpc hrpc => ?_
    rcases List.mem_append.1 hrpc with hrpc | hrpc
    · exact h.rpcs rpc hrpc
    · exact h.invokePeer hn rpc hrpc
  | @gossip x n a hn =>
    refine h.putNode ((h.nodes x n hn).step (.swim a) trivial fun d hd => ?_) h.rpcs
    obtain rfl : a = .arrive d := by cases hd; rfl
    exact h.posted hena
  | @handle x n event hn =>
    obtain ⟨n', hn', hhandle⟩ := hena
    obtain rfl : n = n' := Option.some.inj (hn.symm.trans hn')
    exact h.putNode ((h.nodes x n hn).step _ hhandle fun _ he => by cases he) h.rpcs
  | @resume x n i ord now hn =>
    exact h.putNode ((h.nodes x n hn).step (.resume i ord now) trivial fun _ he => by cases he)
      h.rpcs
  | @sweep x n index passes store hn hs =>
    obtain ⟨h1, h2, h3, h4, h5, h6, h7, h8⟩ := h.nodes x n hn
    have hsweep : Node.Vouched addrs (· ∈ B) x { n with server := { n.server with store } } :=
      ⟨h1, h2, h3, ⟨h4.swim, h4.ring, h4.self⟩, h5, h6, h7, h8⟩
    exact h.putNode hsweep h.rpcs
  | @decay x n hn =>
    obtain ⟨h1, h2, h3, h4, h5, h6, h7, h8⟩ := h.nodes x n hn
    have hdecay : Node.Vouched addrs (· ∈ B) x { n with
        server := { n.server with
          hotKeyMitigator := n.server.hotKeyMitigator.map fun mt =>
            { mt with detector := mt.detector.decay } } } :=
      ⟨h1, h2, h3, ⟨h4.swim, h4.ring, h4.self⟩, h5, h6, h7, h8⟩
    exact h.putNode hdecay h.rpcs
  | @crash x n hn =>
    refine ⟨fun y m hm => ?_, h.rpcs, fun msg hmsg => ?_⟩
    · by_cases hy : y = x
      · simp [hy] at hm
      · exact h.nodes y m (by simpa [Function.update_of_ne hy] using hm)
    · rcases List.mem_append.1 hmsg with hmsg | hmsg
      · exact h.gone msg hmsg
      · obtain ⟨d, hd, rfl⟩ := List.mem_map.1 hmsg
        exact (h.nodes x n hn).swim.sent d hd

end

theorem booted_step (f : Fleet) (a : Act) : f.booted ⊆ (f.step env resolve addrs a).booted := by
  have heff := step_effect env resolve addrs f a
  generalize f.step env resolve addrs a = f' at heff ⊢
  cases heff with
  | boot => exact Finset.subset_insert _ _
  | _ => exact Finset.Subset.refl _

theorem Reached.vouched {f : Fleet} (h : Reached env resolve addrs f) :
    f.Vouched addrs f.booted := by
  obtain ⟨acts, halong, rfl⟩ := h
  -- for every set that holds the nodes started so far, as this set grows
  refine halong.inv (I := fun f => ∀ B, f.booted ⊆ B → f.Vouched addrs B)
    (fun f a hf ha B hB => ?_) (fun B _ => vouched_empty) _ (Finset.Subset.refl _)
  exact (hf B ((booted_step f a).trans hB)).step ha hB

/-- **Rings and connections are genuine.**  In every run of a fleet without forged gossip, with
    messages lost, duplicated and reordered, and processes crashing and restarting: the members of
    every ring, the peers in every registry, the targets of all connections and of all replication
    goroutines are nodes that were started; every record has the addresses of its node, and every
    connection leads to the gRPC address of its node, never back to the node that holds it. -/
theorem rings_and_connections_genuine (f : Fleet) (hf : Reached env resolve addrs f) (x : NodeID)
    (n : Node) (hn : f.node x = some n) :
    (∀ y info, n.swim.m.registry.lookup y = some info →
      y ∈ f.booted ∧ info.id = y ∧ info.addrs = addrs y) ∧
    (∀ y ∈ n.server.ring.nodes, y ∈ f.booted) ∧
    (∀ send ∈ n.sends, send.nodeID ∈ f.booted ∧ send.nodeID ≠ x ∧ send.req.sourceNode = x) ∧
    ∃ rm, n.server.replicationMgr = some rm ∧ rm.selfID = x ∧
      ∀ y addr, rm.peerConns.lookup y = some addr →
        y ∈ f.booted ∧ y ≠ x ∧ addr = (addrs y).grpcAddr := by
  have h := hf.vouched.nodes x n hn
  refine ⟨fun y info hl => ?_, h.ring, h.sends, h.mgr⟩
  obtain ⟨hid, hy, ha⟩ := h.swim.m.records y info hl
  exact ⟨hy, hid, ha⟩

/-- Two nodes with addresses of their own. -/
def abAddrs (x : NodeID) : Addrs := if x = ascii ['a'] then ⟨[1], [2], []⟩ else ⟨[3], [4], []⟩

/-- The join message of `b`. -/
def bJoins : SwimMessage :=
  ⟨.join, ascii ['b'], [4], [], 0, [⟨ascii ['b'], ⟨[3], [4], []⟩, .alive, 0⟩]⟩

/-- `b` joins `a`. -/
noncomputable def abJoin : List Act :=
  [.boot (ascii ['a']) none 1 2 0, .boot (ascii ['b']) none 1 2 0,
    .node (ascii ['b']) (.gossip (.joinCluster [[2]])),
    .node (ascii ['a']) (.gossip (.arrive ⟨[4], bJoins⟩)), .node (ascii ['a']) (.gossip .read)] ++
    (Swim.applies.map fun a => .node (ascii ['a']) (.gossip a)) ++
    [.node (ascii ['a']) (.handle ⟨.join, ascii ['b']⟩),
    .node (ascii ['a']) (.resume 0 default 0), .node (ascii ['a']) (.resume 0 default 0)]

/-- The message that replicates a write of `a`. -/
def abSend : Send := ⟨ascii ['b'], ⟨[1], [7], 0, 1, ascii ['a'], .set⟩⟩

/-- `a` serves a write, and replicates it. -/
def abWrite : List Act :=
  [.issue [1] (.set ⟨[1], [7], 0⟩), .node (ascii ['a']) (.serve 0 0),
    .node (ascii ['a']) (.send abSend)]

noncomputable def abRun (acts : List Act) : Fleet :=
  run (step (fun _ => Wired.env) some abAddrs) empty acts

/-- The fleet after these. -/
noncomputable def abFleet : Fleet := abRun (abJoin ++ abWrite)

/-- What holds of a running node. -/
theorem exists_node_of_any {f : Fleet} {x : NodeID} {p : Node → Bool}
    (h : (f.node x).any p = true) : ∃ n, f.node x = some n ∧ p n = true := by
  cases hn : f.node x with
  | none => simp [hn] at h
  | some n => exact ⟨n, rfl, by simpa [hn] using h⟩

theorem abFleet_along : Along (step (fun _ => Wired.env) some abAddrs) (Enabled abAddrs) empty
    (abJoin ++ abWrite) := by
  have hposted : (abRun (abJoin.take 3)).Posted bJoins := by
    obtain ⟨n, hn, hd⟩ := exists_node_of_any (f := abRun (abJoin.take 3)) (x := ascii ['b'])
      (p := fun n => n.swim.sent.any fun d => d.msg = bJoins) (by decide +kernel)
    obtain ⟨d, hd, he⟩ := List.any_eq_true.1 hd
    exact Or.inr ⟨_, n, hn, d, hd, by simpa using he⟩
  have hhandle : (abRun (abJoin.take 9)).Enabled abAddrs
      (.node (ascii ['a']) (.handle ⟨.join, ascii ['b']⟩)) := by
    obtain ⟨n, hn, he⟩ := exists_node_of_any (f := abRun (abJoin.take 9)) (x := ascii ['a'])
      (p := fun n => n.Enabled (.handle ⟨.join, ascii ['b']⟩)) (by decide +kernel)
    exact ⟨n, hn, by simpa using he⟩
  have hsend : (abRun (abJoin ++ abWrite.take 2)).Enabled abAddrs
      (.node (ascii ['a']) (.send abSend)) := by
    obtain ⟨n, hn, hmem⟩ := exists_node_of_any (f := abRun (abJoin ++ abWrite.take 2))
      (x := ascii ['a']) (p := fun n => abSend ∈ n.sends) (by decide +kernel)
    exact ⟨n, hn, by simpa using hmem⟩
  exact along_append.2 ⟨⟨trivial, trivial, trivial, hposted, trivial, trivial, trivial,
    trivial, trivial, hhandle, trivial, trivial, trivial⟩,
    trivial, ⟨⟨[1], none, .request (.set ⟨[1], [7], 0⟩)⟩, by decide +kernel, by decide⟩, hsend,
    trivial⟩

theorem abFleet_reached : Reached (fun _ => Wired.env) some abAddrs abFleet :=
  ⟨abJoin ++ abWrite, abFleet_along, rfl⟩

theorem rings_and_connections_genuine_pair :
    ∃ n rm, abFleet.node (ascii ['a']) = some n ∧ n.server.replicationMgr = some rm ∧
      rm.peerConns.lookup (ascii ['b']) = some [3] := by
  obtain ⟨n, hn, hb⟩ := exists_node_of_any (f := abFleet) (x := ascii ['a'])
    (p := fun n => n.server.replicationMgr.any fun rm => ascii ['b'] ∈ rm.peerConns)
    (by decide +kernel)
  obtain ⟨-, -, -, rm, hrm, -, hconns⟩ :=
    rings_and_connections_genuine abFleet abFleet_reached (ascii ['a']) n hn
  obtain ⟨addr, haddr⟩ := Finmap.mem_iff.1 (by simpa [hrm] using hb : ascii ['b'] ∈ rm.peerConns)
  exact ⟨n, rm, hn, hrm, haddr.trans (congrArg some (hconns _ addr haddr).2.2)⟩

/-- **RPCs reach the node they are meant for.**  If no two nodes that were started share a gRPC
    address, a request forwarded to a primary, and a message sent to a secondary, is received by
    this node and by no other. -/
theorem rpcs_reach_their_target (f : Fleet) (hf : Reached env resolve addrs f)
    (haddrs : ∀ x ∈ f.booted, ∀ y ∈ f.booted, (addrs x).grpcAddr = (addrs y).grpcAddr → x = y)
    (x y : NodeID) (i : ℕ) (now : Time) (rpc : Envelope) (hrpc : f.rpcs[i]? = some rpc)
    (hy : rpc.target = some y) (hx : (f.node x).isSome)
    (hserve : f.Enabled addrs (.node x (.serve i now))) : x = y := by
  have h := hf.vouched
  obtain ⟨n, hn⟩ := Option.isSome_iff_exists.1 hx
  obtain ⟨rpc', hrpc', hat⟩ := hserve
  obtain rfl : rpc = rpc' := Option.some.inj (hrpc.symm.trans hrpc')
  obtain ⟨hmem, haddr⟩ := h.rpcs rpc (List.mem_of_getElem? hrpc) y hy
  have hself := (h.nodes x n hn).swim.m.self
  rw [(h.nodes x n hn).selfID] at hself
  exact haddrs x hself y hmem (hat.symm.trans haddr)

theorem rpcs_reach_their_target_replica :
    abFleet.rpcs[0]? = some ⟨[3], some (ascii ['b']), .replicate abSend.req⟩ ∧
      ¬ abFleet.Enabled abAddrs (.node (ascii ['a']) (.serve 0 0)) := by
  have hrpc : abFleet.rpcs[0]? = some ⟨[3], some (ascii ['b']), .replicate abSend.req⟩ := by
    decide +kernel
  refine ⟨hrpc, fun hserve => ?_⟩
  have hab := rpcs_reach_their_target abFleet abFleet_reached (by decide +kernel) (ascii ['a'])
    (ascii ['b']) 0 0 _ hrpc rfl (by decide +kernel) hserve
  exact absurd hab (by decide)

end Fleet

end DistCache
