/-
  The whole fleet: the processes of `cmd/cachenode/main.go`, their gossip, and the RPCs between
  them and from the clients.

  An RPC is sent to an address, and received by the node that listens there.  A handler that
  forwards a request sends it on over its connection to the primary, and a replication goroutine
  sends its message over the connection to the secondary.  An RPC may be lost at any time: the
  fault injectors, timeouts and closed connections need no transitions of their own.  A process may
  end at any time, and be started again with empty state; what it has sent stays on its way.  An
  RPC that arrives is the one that was sent: keys and node IDs are taken to be valid UTF-8, which the
  JSON codec keeps.
-/
import DistCache.Node
import DistCache.Service
import DistCache.Sweeper

namespace DistCache

deriving instance DecidableEq for GetRequest, SetRequest, DeleteRequest, ExpireRequest, Request,
  ServerCall

/-- An RPC on its way: the address it is sent to, the node it is meant for if it was sent by
    another node, and the call. -/
structure Envelope where
  addr : GoString
  target : Option NodeID
  call : ServerCall
  deriving DecidableEq

/-- The request of a client that an RPC carries. -/
def Envelope.request (rpc : Envelope) : Option Request :=
  match rpc.call with
  | .request req => some req
  | .replicate _ => none

/-- The goroutine that sent an RPC, if it is a replicated write. -/
def Envelope.send (rpc : Envelope) : Option Send :=
  match rpc.target, rpc.call with
  | some nodeID, .replicate req => some ⟨nodeID, req⟩
  | _, _ => none

/-- The RPC that a server sends over its connection to another node, if there is one. -/
def CacheServer.invokePeer (cs : CacheServer) (nodeID : NodeID) (call : ServerCall) :
    Option Envelope :=
  cs.replicationMgr.bind fun rm =>
    (rm.peerConns.lookup nodeID).map fun addr => ⟨addr, some nodeID, call⟩

/-- The fleet, with what has happened so far: the requests that clients sent, the answers of the
    handlers, the nodes that were started, and the gossip of processes that have ended. -/
structure Fleet where
  /-- The process of a node, if it is running. -/
  node : NodeID → Option Node
  rpcs : List Envelope
  issued : List Request
  answers : List (Request × Response)
  booted : Finset NodeID
  gone : List SwimMessage

namespace Fleet

variable (env : NodeID → Env) (resolve : GoString → Option UDPAddr) (addrs : NodeID → Addrs)

/-- No node has been started. -/
def empty : Fleet := ⟨fun _ => none, [], [], [], ∅, []⟩

def putNode (f : Fleet) (x : NodeID) (n : Node) : Fleet :=
  { f with node := Function.update f.node x (some n) }

/-- Node `x` handles a call. -/
def handleCall (f : Fleet) (x : NodeID) (n : Node) (now : Time) : ServerCall → Fleet
  | .request req =>
    let f := f.putNode x (n.step (env x) resolve (.request now req))
    match (n.server.handle now req).1 with
    | .proxy primary =>
      { f with rpcs := f.rpcs ++ (n.server.invokePeer primary (.request req)).toList }
    | .reply resp _ => { f with answers := f.answers ++ [(req, resp)] }
  | .replicate req => f.putNode x (n.step (env x) resolve (.replicate now req))

/-- A goroutine `sendReplicate` of node `x`, up to its RPC. -/
def sendReplicate (f : Fleet) (x : NodeID) (n : Node) (send : Send) : Fleet :=
  { f.putNode x { n with sends := n.sends.erase send } with
    rpcs := f.rpcs ++ (n.server.invokePeer send.nodeID (.replicate send.req)).toList }

/-- What a running node does. -/
inductive NodeAct where
  /-- It receives the RPC number `i`. -/
  | serve (i : ℕ) (now : Time)
  /-- A replication goroutine runs. -/
  | send (send : Send)
  /-- The membership takes a step. -/
  | gossip (a : Swim.Act)
  /-- The callback for an event starts. -/
  | handle (event : MembershipEvent)
  /-- The callback number `i` goes on. -/
  | resume (i : ℕ) (ord : RangeOrder Key Entry) (now : Time)
  /-- The sweeper visits a shard. -/
  | sweep (index : ℕ) (passes : List Pass)
  /-- The hot key detector decays its sketch. -/
  | decay
  /-- The process ends. -/
  | crash

inductive Act where
  /-- A client sends a request to an address. -/
  | issue (addr : GoString) (req : Request)
  /-- The RPC number `i` is lost. -/
  | lose (i : ℕ)
  /-- A node that is not running is started. -/
  | boot (x : NodeID) (inj : Option FaultInjector) (vnodeCount replicaCount : ℤ)
      (maxLoadFactor : ℚ)
  | node (x : NodeID) (a : NodeAct)

/-- The step of the running node `x`. -/
def stepNode (f : Fleet) (x : NodeID) (n : Node) : NodeAct → Fleet
  | .serve i now =>
    match f.rpcs[i]? with
    | none => f
    | some rpc => { f with rpcs := f.rpcs.eraseIdx i }.handleCall env resolve x n now rpc.call
  | .send send => f.sendReplicate x n send
  | .gossip a => f.putNode x (n.step (env x) resolve (.swim a))
  | .handle event => f.putNode x (n.step (env x) resolve (.handle event))
  | .resume i ord now => f.putNode x (n.step (env x) resolve (.resume i ord now))
  | .sweep index passes =>
    match n.server.store.sweepShard index passes with
    | none => f
    | some store => f.putNode x { n with server := { n.server with store } }
  | .decay =>
    f.putNode x { n with
      server := { n.server with
        hotKeyMitigator := n.server.hotKeyMitigator.map fun mt =>
          { mt with detector := mt.detector.decay } } }
  | .crash =>
    { f with
      node := Function.update f.node x none
      gone := f.gone ++ n.swim.sent.map Datagram.msg }

def step (f : Fleet) : Act → Fleet
  | .issue addr req =>
    { f with rpcs := f.rpcs ++ [⟨addr, none, .request req⟩], issued := f.issued ++ [req] }
  | .lose i => { f with rpcs := f.rpcs.eraseIdx i }
  | .boot x inj vnodeCount replicaCount maxLoadFactor =>
    match f.node x with
    | some _ => f
    | none =>
      { f.putNode x (.start (env x) x (addrs x) inj vnodeCount replicaCount maxLoadFactor) with
        booted := insert x f.booted }
  | .node x a =>
    match f.node x with
    | none => f
    | some n => f.stepNode env resolve x n a

/-- A message that some process has sent. -/
def Posted (f : Fleet) (msg : SwimMessage) : Prop :=
  msg ∈ f.gone ∨ ∃ y n, f.node y = some n ∧ ∃ d ∈ n.swim.sent, d.msg = msg

/-- An RPC is received by a node that listens at its address, only goroutines that were started
    run, a callback is started once for each event, and gossip is not forged. -/
def Enabled (f : Fleet) : Act → Prop
  | .node x (.serve i _) => ∃ rpc, f.rpcs[i]? = some rpc ∧ rpc.addr = (addrs x).grpcAddr
  | .node x (.send send) => ∃ n, f.node x = some n ∧ send ∈ n.sends
  | .node _ (.gossip (.arrive d)) => f.Posted d.msg
  | .node x (.handle event) => ∃ n, f.node x = some n ∧ n.Enabled (.handle event)
  | _ => True

/-- The fleets that the guarded runs lead to. -/
def Reached (f : Fleet) : Prop :=
  ∃ acts, Lib.Along (step env resolve addrs) (Enabled addrs) empty acts ∧
    Lib.run (step env resolve addrs) empty acts = f

/-! ## The replication log of a run -/

/-- The goroutines that a transition of a node starts: those behind the ones it had. -/
def startedIn (f f' : Fleet) : Act → List Send
  | .node x _ =>
    match f.node x, f'.node x with
    | some n, some n' => n'.sends.drop n.sends.length
    | _, _ => []
  | _ => []

/-- The replicated write that a transition applies, and the node that applies it. -/
def applies (f : Fleet) : Act → Option (NodeID × Send)
  | .node x (.serve i _) =>
    if (f.node x).isSome then (f.rpcs[i]?.bind Envelope.send).map (x, ·) else none
  | _ => none

/-- A node is started for the first time. -/
def FirstBoot (f : Fleet) : Act → Prop
  | .boot x _ _ _ _ => x ∉ f.booted
  | _ => True

instance (f : Fleet) : ∀ a, Decidable (f.FirstBoot a)
  | .boot x _ _ _ _ => inferInstanceAs (Decidable (x ∉ f.booted))
  | .issue _ _ | .lose _ | .node _ _ => inferInstanceAs (Decidable True)

/-- A fleet, with the replication goroutines started and the replicated writes applied so far. -/
structure Logged where
  fleet : Fleet
  started : List Send
  applied : List (NodeID × Send)

namespace Logged

def empty : Logged := ⟨.empty, [], []⟩

def step (l : Logged) (a : Act) : Logged :=
  let fleet := l.fleet.step env resolve addrs a
  ⟨fleet, l.started ++ startedIn l.fleet fleet a, l.applied ++ (l.fleet.applies a).toList⟩

end Logged

end Fleet

end DistCache
