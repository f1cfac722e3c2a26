/-
  The SWIM protocol of a node (`internal/cluster/membership.go`): messages and
  their handlers, the receive loop and the ping loop, and clusters of nodes.

  A node runs two goroutines, `receiveLoop` and `pingLoop`, next to the timers of
  its membership state.  Each has a program counter (`Recv`, `Ping`); what it does
  between two waits, or between two accesses to the shared state, is one
  transition.  A `select` on an ack channel, a timeout and `stopCh` is one
  transition per case: the channel must be closed, the node must be stopping, and
  the timeout may always come.  A transition that needs the lock `m.mu` waits while
  the ping loop holds it in the middle of `markSuspect`; `refute` and the methods on
  pending acks, which do not touch what `markSuspect` has tested, are not made to
  wait: they may as well come before it.

  Datagrams that cannot be decoded are dropped by the loop and do not appear.  The
  others arrive as they were sent: node IDs and addresses are taken to be valid
  UTF-8, which the JSON encoding keeps, and a message, which may list all members,
  to fit into a UDP datagram and into the buffer of the receive loop.
-/
import DistCache.Membership
import DistCache.Store

namespace DistCache

/-! ## Messages -/

/-- The type of a message; one with another code is read for its updates only. -/
inductive MessageType where
  | ping
  | ack
  | pingReq
  | join
  | unknown (code : ℕ)
  deriving DecidableEq

structure SwimMessage where
  type : MessageType
  senderID : NodeID
  senderAddr : GoString
  targetID : NodeID
  incarnation : UInt64
  updates : List MembershipUpdate
  deriving DecidableEq

/-- A resolved UDP address. -/
abbrev UDPAddr := GoString

/-- A message with the address it is sent to, or was received from. -/
structure Datagram where
  addr : UDPAddr
  msg : SwimMessage
  deriving DecidableEq

/-- What `rand.Shuffle` does to a list. -/
structure Shuffle where
  list : List NodeInfo → List NodeInfo
  perm : ∀ nodes, (list nodes).Perm nodes

/-- The record of a node as an update. -/
def NodeInfo.update (info : NodeInfo) : MembershipUpdate :=
  ⟨info.id, info.addrs, info.status, info.incarnation⟩

namespace Membership

variable (resolve : GoString → Option UDPAddr)

/-- A message of this node. -/
def message (m : Membership) (type : MessageType) (targetID : NodeID)
    (updates : List MembershipUpdate) : SwimMessage :=
  ⟨type, m.selfID, m.addrs.gossipAddr, targetID, m.incarnation, updates⟩

/-- `GetAll`. -/
def getAll (m : Membership) (ord : RangeOrder NodeID NodeInfo) : List NodeInfo :=
  (ord.list m.registry).map fun e => e.2

/-! ## Handlers -/

/-- `handlePing`: answer with an ack. -/
def handlePing (m : Membership) (remote : UDPAddr) : Membership × Datagram :=
  let (updates, m) := m.drainUpdates
  (m, ⟨remote, m.message .ack [] updates⟩)

/-- `handleAck`: close the pending channel of the sender. -/
def handleAck (m : Membership) (msg : SwimMessage) : Membership :=
  match m.pendingAcks.lookup msg.senderID with
  | none => m
  | some ch =>
    { m with closed := insert ch m.closed, pendingAcks := m.pendingAcks.erase msg.senderID }

/-- `handleJoin`: answer with the full membership list. -/
def handleJoin (m : Membership) (ord : RangeOrder NodeID NodeInfo) (remote : UDPAddr) : Datagram :=
  ⟨remote, m.message .ack [] ((m.getAll ord).map NodeInfo.update)⟩

/-! ## Pings -/

/-- Register a fresh channel for the ack of a target. -/
def expectAck (m : Membership) (targetID : NodeID) : Membership :=
  { m with
    pendingAcks := m.pendingAcks.insert targetID m.nextChan
    nextChan := m.nextChan + 1 }

/-- The end of a wait without an ack. -/
def giveUp (m : Membership) (targetID : NodeID) : Membership :=
  { m with pendingAcks := m.pendingAcks.erase targetID }

/-- `sendPingAndWait` up to the wait: the channel to wait on, and the ping. -/
def sendPing (m : Membership) (addr : GoString) (targetID : NodeID) :
    Option (ℕ × Membership × Datagram) :=
  if m.isBlocked targetID then none
  else
    match resolve addr with
    | none => none
    | some udpAddr =>
      let ch := m.nextChan
      let (updates, m) := (m.expectAck targetID).drainUpdates
      some (ch, m, ⟨udpAddr, m.message .ping [] updates⟩)

/-- The candidates of `pingRandomMember`. -/
def candidates (m : Membership) (ord : RangeOrder NodeID NodeInfo) : List NodeInfo :=
  (m.getAll ord).filter fun node =>
    node.id ≠ m.selfID ∧ (node.status = .alive ∨ node.status = .suspect)

/-- The proxies of `sendPingReqs`. -/
def proxies (m : Membership) (ord : RangeOrder NodeID NodeInfo) (targetID : NodeID) :
    List NodeInfo :=
  (m.getAll ord).filter fun node =>
    node.id ≠ m.selfID ∧ node.id ≠ targetID ∧ node.status = .alive

/-- `DefaultPingReqCount`. -/
def pingReqCount : ℕ := 3

/-- `sendPingReqs` up to the wait: the channel to wait on, and the ping-reqs. -/
def sendPingReqs (m : Membership) (ord : RangeOrder NodeID NodeInfo) (shuffle : Shuffle)
    (targetID : NodeID) : Option (ℕ × Membership × List Datagram) :=
  if m.proxies ord targetID = [] then none
  else
    let proxies := (shuffle.list (m.proxies ord targetID)).take pingReqCount
    some (m.nextChan, m.expectAck targetID, proxies.filterMap fun proxy =>
      if m.isBlocked proxy.id then none
      else (resolve proxy.addrs.gossipAddr).map fun udpAddr =>
        ⟨udpAddr, m.message .pingReq targetID []⟩)

/-! ## Life cycle -/

/-- `JoinCluster`: a join message to every seed. -/
def joinCluster (m : Membership) (seedAddrs : List GoString) : List Datagram :=
  seedAddrs.filterMap fun addr =>
    (resolve addr).map fun udpAddr => ⟨udpAddr, m.message .join [] [m.selfAlive]⟩

/-- The end of `Stop`: cancel all suspicion timers. -/
def stopTimers (m : Membership) (ord : RangeOrder NodeID ℕ) : Membership :=
  (ord.list m.suspicionTimers).foldl (fun m e => m.stopTimer e.1) m

end Membership

/-! ## The loops of a node -/

/-- Where the receive loop is. -/
inductive Recv where
  | reading
  /-- `handleMessage`, with the updates still to be applied. -/
  | applying (rest : List MembershipUpdate) (msg : SwimMessage) (remote : UDPAddr)
  /-- `applyUpdate`, with what is left of it, and with the updates after it. -/
  | updating (todo : Membership.Todo) (update : MembershipUpdate) (rest : List MembershipUpdate)
      (msg : SwimMessage) (remote : UDPAddr)
  /-- `handlePingReq`, at the wait for the ack of the target. -/
  | waiting (targetID : NodeID) (targetAddr : GoString) (ch : ℕ) (remote : UDPAddr)
  | exited
  deriving DecidableEq

def Recv.isWaiting : Recv → Bool
  | .waiting .. => true
  | _ => false

/-- The receive loop after a section of `applyUpdate`. -/
def Recv.after (update : MembershipUpdate) (rest : List MembershipUpdate) (msg : SwimMessage)
    (remote : UDPAddr) : Option Membership.Todo → Recv
  | none => .applying rest msg remote
  | some todo => .updating todo update rest msg remote

/-- Where the ping loop is. -/
inductive Ping where
  | idle
  /-- The wait of `sendPingAndWait`. -/
  | direct (targetID : NodeID) (ch : ℕ)
  /-- The direct ping failed. -/
  | probing (targetID : NodeID)
  /-- The wait of `sendPingReqs`. -/
  | indirect (targetID : NodeID) (ch : ℕ)
  /-- All probes failed. -/
  | suspecting (targetID : NodeID)
  /-- `markSuspect`, with the lock, after its tests. -/
  | marking (targetID : NodeID)
  | exited
  deriving DecidableEq

/-- The ping loop holds the lock. -/
def Ping.isMarking : Ping → Bool
  | .marking _ => true
  | _ => false

/-- A node: its membership state, the datagrams in its socket, its two loops, whether
    `stopCh` is closed, and the datagrams it has sent so far. -/
structure Swim where
  m : Membership
  socket : List Datagram
  recv : Recv
  ping : Ping
  stopped : Bool
  sent : List Datagram

namespace Swim

variable (resolve : GoString → Option UDPAddr)

/-- A node after `Start`. -/
def start (selfID : NodeID) (addrs : Addrs) (injector : Option FaultInjector) : Swim where
  m := .start selfID addrs injector
  socket := []
  recv := .reading
  ping := .idle
  stopped := false
  sent := []

/-! ### The receive loop -/

/-- Read a datagram; one from a blocked sender is dropped. -/
def read (s : Swim) : Swim :=
  match s.recv, s.socket with
  | .reading, d :: socket =>
    if s.m.isBlocked d.msg.senderID then { s with socket }
    else { s with socket, recv := .applying d.msg.updates d.msg d.addr }
  | _, _ => s

/-- Begin to apply the next update of the message. -/
def apply (s : Swim) : Swim :=
  match s.recv with
  | .applying (update :: rest) msg remote =>
    let (m, todo) := s.m.beginUpdate update
    { s with m, recv := .after update rest msg remote todo }
  | _ => s

/-- Go on with `applyUpdate`. -/
def resume (s : Swim) : Swim :=
  match s.recv with
  | .updating todo update rest msg remote =>
    if todo.isLocked ∧ s.ping.isMarking then s
    else
      let (m, todo) := s.m.resumeUpdate update todo
      { s with m, recv := .after update rest msg remote todo }
  | _ => s

/-- `handlePingReq`: ping the target, and wait. -/
def handlePingReq (s : Swim) (msg : SwimMessage) (remote : UDPAddr) : Swim :=
  match s.m.registry.lookup msg.targetID with
  | none => { s with recv := .reading }
  | some targetInfo =>
    match s.m.sendPing resolve targetInfo.addrs.gossipAddr msg.targetID with
    | none => { s with recv := .reading }
    | some (ch, m, d) =>
      { s with
        m
        recv := .waiting msg.targetID targetInfo.addrs.gossipAddr ch remote
        sent := s.sent ++ [d] }

/-- Handle the message itself, once its updates are applied. -/
def dispatch (s : Swim) (ord : RangeOrder NodeID NodeInfo) : Swim :=
  match s.recv with
  | .applying [] msg remote =>
    match msg.type with
    | .ping =>
      let (m, d) := s.m.handlePing remote
      { s with m, recv := .reading, sent := s.sent ++ [d] }
    | .ack => { s with m := s.m.handleAck msg, recv := .reading }
    | .pingReq => s.handlePingReq resolve msg remote
    | .join => { s with recv := .reading, sent := s.sent ++ [s.m.handleJoin ord remote] }
    | .unknown _ => { s with recv := .reading }
  | _ => s

/-- The ack of the target is there: forward it to the requester. -/
def recvAck (s : Swim) : Swim :=
  match s.recv with
  | .waiting targetID targetAddr ch remote =>
    if ch ∈ s.m.closed then
      { s with
        recv := .reading
        sent := s.sent ++ [⟨remote, ⟨.ack, targetID, targetAddr, [], s.m.incarnation, []⟩⟩] }
    else s
  | _ => s

/-- The wait of `handlePingReq` times out. -/
def recvTimeout (s : Swim) : Swim :=
  match s.recv with
  | .waiting targetID _ _ _ => { s with m := s.m.giveUp targetID, recv := .reading }
  | _ => s

/-- The receive loop finds `stopCh` closed. -/
def recvStop (s : Swim) : Swim :=
  if s.stopped then
    match s.recv with
    | .waiting .. => { s with recv := .reading }
    | .reading => { s with recv := .exited }
    | _ => s
  else s

/-! ### The ping loop -/

/-- A tick: ping the candidate number `i`. -/
def tick (s : Swim) (ord : RangeOrder NodeID NodeInfo) (i : ℕ) : Swim :=
  match s.ping, (s.m.candidates ord)[i]? with
  | .idle, some target =>
    match s.m.sendPing resolve target.addrs.gossipAddr target.id with
    | none => { s with ping := .probing target.id }
    | some (ch, m, d) => { s with m, ping := .direct target.id ch, sent := s.sent ++ [d] }
  | _, _ => s

/-- The direct ping failed: try indirect probes. -/
def pingReqs (s : Swim) (ord : RangeOrder NodeID NodeInfo) (shuffle : Shuffle) : Swim :=
  match s.ping with
  | .probing targetID =>
    match s.m.sendPingReqs resolve ord shuffle targetID with
    | none => { s with ping := .suspecting targetID }
    | some (ch, m, ds) => { s with m, ping := .indirect targetID ch, sent := s.sent ++ ds }
  | _ => s

/-- The ping loop is signalled by an ack. -/
def pingAck (s : Swim) : Swim :=
  match s.ping with
  | .direct _ ch | .indirect _ ch => if ch ∈ s.m.closed then { s with ping := .idle } else s
  | _ => s

/-- A wait of the ping loop times out. -/
def pingTimeout (s : Swim) : Swim :=
  match s.ping with
  | .direct targetID _ => { s with m := s.m.giveUp targetID, ping := .probing targetID }
  | .indirect targetID _ => { s with m := s.m.giveUp targetID, ping := .suspecting targetID }
  | _ => s

/-- The ping loop finds `stopCh` closed. -/
def pingStop (s : Swim) : Swim :=
  if s.stopped then
    match s.ping with
    | .direct targetID _ => { s with ping := .probing targetID }
    | .indirect targetID _ => { s with ping := .suspecting targetID }
    | .idle => { s with ping := .exited }
    | _ => s
  else s

/-- All probes failed: `markSuspect` takes the lock and tests the status of the target. -/
def suspect (s : Swim) : Swim :=
  match s.ping with
  | .suspecting targetID =>
    { s with ping := if s.m.canSuspect targetID then .marking targetID else .idle }
  | _ => s

/-- `markSuspect` marks the target as suspect. -/
def mark (s : Swim) : Swim :=
  match s.ping with
  | .marking targetID => { s with m := s.m.setSuspect targetID, ping := .idle }
  | _ => s

/-- A waiting callback gets the lock. -/
def callback (s : Swim) (nodeID : NodeID) : Swim :=
  if s.ping.isMarking then s else { s with m := s.m.callback nodeID }

/-- The end of `Stop`, after both loops have returned. -/
def halt (s : Swim) (ord : RangeOrder NodeID ℕ) : Swim :=
  if s.recv = .exited ∧ s.ping = .exited then { s with m := s.m.stopTimers ord } else s

/-! ### Transitions -/

inductive Act where
  /-- A datagram reaches the socket. -/
  | arrive (d : Datagram)
  | read
  | apply
  | resume
  | dispatch (ord : RangeOrder NodeID NodeInfo)
  | recvAck
  | recvTimeout
  | recvStop
  | tick (ord : RangeOrder NodeID NodeInfo) (i : ℕ)
  | pingReqs (ord : RangeOrder NodeID NodeInfo) (shuffle : Shuffle)
  | pingAck
  | pingTimeout
  | pingStop
  | suspect
  | mark
  | fire (t : ℕ)
  | callback (nodeID : NodeID)
  /-- The fault injector is changed by the chaos endpoints. -/
  | inject (injector : Option FaultInjector)
  | joinCluster (seedAddrs : List GoString)
  /-- `Stop` broadcasts the leave, and later closes `stopCh`. -/
  | leave
  | stop
  | halt (ord : RangeOrder NodeID ℕ)

def step (s : Swim) : Act → Swim
  | .arrive d => { s with socket := s.socket ++ [d] }
  | .read => s.read
  | .apply => s.apply
  | .resume => s.resume
  | .dispatch ord => s.dispatch resolve ord
  | .recvAck => s.recvAck
  | .recvTimeout => s.recvTimeout
  | .recvStop => s.recvStop
  | .tick ord i => s.tick resolve ord i
  | .pingReqs ord shuffle => s.pingReqs resolve ord shuffle
  | .pingAck => s.pingAck
  | .pingTimeout => s.pingTimeout
  | .pingStop => s.pingStop
  | .suspect => s.suspect
  | .mark => s.mark
  | .fire t => { s with m := s.m.fire t }
  | .callback nodeID => s.callback nodeID
  | .inject injector => { s with m := { s.m with injector } }
  | .joinCluster seedAddrs => { s with sent := s.sent ++ s.m.joinCluster resolve seedAddrs }
  | .leave => { s with m := s.m.leave }
  | .stop => { s with stopped := true }
  | .halt ord => s.halt ord

end Swim

/-! ## Clusters -/

/-- A cluster: the node of every ID, and the ALIVE updates each node has queued in `refute`,
    latest first.  An ID without a node is one whose node takes no step. -/
structure World where
  node : NodeID → Swim
  refuted : NodeID → List MembershipUpdate

namespace World

variable (resolve : GoString → Option UDPAddr)

def start (addrs : NodeID → Addrs) (injector : NodeID → Option FaultInjector) : World where
  node x := .start x (addrs x) (injector x)
  refuted _ := []

/-- A transition of one node. -/
structure Act where
  nodeID : NodeID
  act : Swim.Act

/-- The update that a transition queues in `refute`. -/
def refutation (s : Swim) : Swim.Act → Option MembershipUpdate
  | .apply =>
    match s.recv with
    | .applying (update :: _) _ _ =>
      if update.nodeID = s.m.selfID ∧ (update.status = .suspect ∨ update.status = .dead) then
        some (s.m.applyUpdate update).selfAlive
      else none
    | _ => none
  | _ => none

def step (w : World) (a : Act) : World where
  node := Function.update w.node a.nodeID ((w.node a.nodeID).step resolve a.act)
  refuted := Function.update w.refuted a.nodeID
    ((refutation (w.node a.nodeID) a.act).toList ++ w.refuted a.nodeID)

/-- No message is forged: what arrives was sent, by some node, at some time. -/
def Enabled (w : World) (a : Act) : Prop :=
  ∀ d, a.act = .arrive d → ∃ y, ∃ d' ∈ (w.node y).sent, d'.msg = d.msg

end World

end DistCache
