/-
  Several nodes: forwarding chains, and replication messages between nodes.

  A peer connection to a node leads to the server of that node.  A forwarded
  request is handled by one node after another (`hops`).  The goroutines that
  replicate a write run in any order (`Schedule`), and each of them delivers its
  message if the source still has a connection (`sendReplicate`).
-/
import DistCache.Server

namespace DistCache

open Lib

/-- A node with a store of one shard and no mitigator, that knows the given members and
    is connected to the others. -/
def nodeWith (S : SortSlice) (vnodeCount replicaCount : ℤ) (id : NodeID)
    (members : List NodeID) : CacheServer where
  nodeID := id
  store := .newWithShards 1
  ring := run (Ring.exec S) (Ring.new vnodeCount 0) (members.map .addNode)
  replicationMgr := some
    { ReplicationManager.new id replicaCount with
      peerConns := (members.filter (· ≠ id)).foldl (fun conns x => conns.insert x x) ∅ }
  hotKeyMitigator := none

/-! ## Forwarding chains -/

/-- The nodes that handle a request, from the entry node `x` on, and how each of
    their handlers ends.  `servers i y` is the state of node `y` when the `i`-th
    hop of the request reaches it: the ring views may differ between nodes and
    change between hops.  `delivers i` tells whether the forwarding RPC of hop `i`
    succeeds; at most `fuel` hops are followed. -/
def hops (servers : ℕ → NodeID → CacheServer) (now : ℕ → Time) (delivers : ℕ → Bool)
    (req : Request) : (fuel : ℕ) → (i : ℕ) → NodeID → List (NodeID × Handled)
  | 0, _, _ => []
  | fuel + 1, i, x =>
    match ((servers i x).handle (now i) req).1 with
    | .proxy primary =>
      (x, .proxy primary) ::
        if delivers i then hops servers now delivers req fuel (i + 1) primary else []
    | .reply resp sends => [(x, .reply resp sends)]

/-! ## Replication streams -/

/-- The goroutines started by a handler. -/
def Handled.sends : Handled → List Send
  | .proxy _ => []
  | .reply _ sends => sends

namespace CacheServer

/-- The server after a request. -/
def step (cs : CacheServer) (a : Time × Request) : CacheServer := (cs.handle a.1 a.2).2

/-- The goroutines started while requests are executed one after another. -/
def sendsOf (cs : CacheServer) : List (Time × Request) → List Send
  | [] => []
  | a :: rest => (cs.handle a.1 a.2).1.sends ++ (cs.step a).sendsOf rest

/-- The server after the delivery of a replication message. -/
def receive (cs : CacheServer) (a : Time × ReplicateRequest) : CacheServer := cs.replicate a.1 a.2

end CacheServer

/-- The messages sent to node `x`. -/
def messagesTo (x : NodeID) (sends : List Send) : List ReplicateRequest :=
  (sends.filter fun send => send.nodeID = x).map Send.req

/-! ## Clusters -/

/-- The states of the nodes. -/
abbrev Cluster := NodeID → CacheServer

/-- The order in which the goroutines started by a request run. -/
structure Schedule where
  order : List Send → List Send
  perm : ∀ sends, (order sends).Perm sends

/-- A client request: the node it enters at, the times at which the nodes of its
    forwarding chain handle it, and the schedule and times of the deliveries of
    its replication messages. -/
structure Call where
  node : NodeID
  req : Request
  now : ℕ → Time
  schedule : Schedule
  arrival : Send → Time

namespace Cluster

/-- `sendReplicate` of node `src`; the RPC is skipped without a connection. -/
def sendReplicate (src : NodeID) (arrival : Send → Time) (c : Cluster) (send : Send) : Cluster :=
  match (c src).replicationMgr with
  | none => c
  | some rm =>
    if send.nodeID ∈ rm.peerConns then
      Function.update c send.nodeID ((c send.nodeID).replicate (arrival send) send.req)
    else c

/-- A request executed to the end with all its replication messages, if at most
    `fuel` nodes handle it. -/
def request (fuel : ℕ) (c : Cluster) (call : Call) : Option (Response × Cluster) :=
  let chain := hops (fun _ => c) call.now (fun _ => true) call.req fuel 0 call.node
  match chain.getLast? with
  | some (y, .reply resp sends) =>
    let c := Function.update c y ((c y).step (call.now (chain.length - 1), call.req))
    some (resp, run (sendReplicate y call.arrival) c (call.schedule.order sends))
  | _ => none

/-- The decay of the hot-key detector of node `x`. -/
def decay (c : Cluster) (x : NodeID) : Cluster :=
  Function.update c x
    { c x with
      hotKeyMitigator := (c x).hotKeyMitigator.map fun mt =>
        { mt with detector := mt.detector.decay } }

/-- What happens in a cluster: client requests, one after another, and ticks of the
    detectors. -/
inductive Event where
  | request (call : Call)
  | decay (x : NodeID)

/-- The responses to the requests of a run, if all of them are answered. -/
def serveAll (fuel : ℕ) (c : Cluster) : List Event → Option (List Response)
  | [] => some []
  | .request call :: rest => do
    let (resp, c) ← c.request fuel call
    let resps ← c.serveAll fuel rest
    return resp :: resps
  | .decay x :: rest => (c.decay x).serveAll fuel rest

end Cluster

end DistCache
