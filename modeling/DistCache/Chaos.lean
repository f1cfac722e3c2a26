/-
  Fault injection (`internal/chaos`): the fault injector, its HTTP endpoints, and the interceptors
  that apply its faults to the RPCs of a node.

  A request has what `json.Decode` makes of its body: the fields, or the text of the error.  An
  RPC that waits out the injected latency goes to its handler afterwards, or its context ends
  first; the handlers are those of `CacheServer`.
-/
import DistCache.Fleet

namespace DistCache

/-- The fault injector with its latency, which the membership does not read. -/
structure Chaos extends FaultInjector where
  latencyMs : Duration

/-- The order in which the keys of `partitioned` are visited. -/
structure PeerOrder where
  list : Finset NodeID → List NodeID
  keys : ∀ s, (list s : Multiset NodeID) = s.val

/-- `FaultStatus`. -/
structure FaultStatus where
  failed : Bool
  latencyMs : Int64
  partitioned : List NodeID

namespace Chaos

/-- `NewFaultInjector`. -/
def new : Chaos := ⟨⟨false, ∅⟩, 0⟩

def setFailed (c : Chaos) (failed : Bool) : Chaos := { c with failed }

def setLatency (c : Chaos) (d : Duration) : Chaos := { c with latencyMs := d }

/-- `PartitionNode`. -/
def partitionNode (c : Chaos) (peerID : NodeID) (partition : Bool) : Chaos :=
  { c with
    partitioned := if partition then insert peerID c.partitioned else c.partitioned.erase peerID }

/-- `IsPartitioned`. -/
def isPartitioned (c : Chaos) (peerID : NodeID) : Bool := peerID ∈ c.partitioned

/-- `Recover`: clear all faults. -/
def recover (_ : Chaos) : Chaos := ⟨⟨false, ∅⟩, 0⟩

/-- `Status`. -/
def status (c : Chaos) (ord : PeerOrder) : FaultStatus :=
  ⟨c.failed, c.latencyMs.milliseconds, ord.list c.partitioned⟩

end Chaos

/-! ## The endpoints -/

inductive HttpMethod where
  | get
  | post
  | other (name : GoString)
  deriving DecidableEq

/-- A path of the chaos endpoints, with the decoded body. -/
inductive ChaosEndpoint where
  | failNode (body : Except String Bool)
  | slowNode (body : Except String Int64)
  | partition (body : Except String (NodeID × Bool))
  | recover
  | status

structure ChaosRequest where
  method : HttpMethod
  endpoint : ChaosEndpoint

/-- A response: an error with its code, or the fields of the JSON object sent with code 200. -/
inductive ChaosReply where
  | error (code : ℕ) (text : String)
  | failNode (message : String) (failed : Bool)
  | slowNode (message : String) (latencyMs : Int64)
  | partition (message : String) (peerID : NodeID) (partition : Bool)
  | recover (message : String)
  | status (status : FaultStatus)

/-- The status code of a response. -/
def ChaosReply.code : ChaosReply → ℕ
  | .error code _ => code
  | _ => 200

namespace Chaos

/-- The checks that the endpoints with a body share. -/
def handlePost {α : Type} (c : Chaos) (method : HttpMethod) (body : Except String α)
    (handle : α → ChaosReply × Chaos) : ChaosReply × Chaos :=
  if method ≠ .post then (.error 405 "method not allowed", c)
  else
    match body with
    | .error err => (.error 400 ("bad request: " ++ err), c)
    | .ok req => handle req

def handleFailNode (c : Chaos) (method : HttpMethod) (body : Except String Bool) :
    ChaosReply × Chaos :=
  c.handlePost method body fun failed =>
    (.failNode "node failure state updated" failed, c.setFailed failed)

/-- `handleSlowNode`: the product may overflow, and the response repeats the request. -/
def handleSlowNode (c : Chaos) (method : HttpMethod) (body : Except String Int64) :
    ChaosReply × Chaos :=
  c.handlePost method body fun latencyMs =>
    (.slowNode "node latency updated" latencyMs, c.setLatency (latencyMs * millisecond))

def handlePartition (c : Chaos) (method : HttpMethod) (body : Except String (NodeID × Bool)) :
    ChaosReply × Chaos :=
  c.handlePost method body fun (peerID, partition) =>
    if peerID = [] then (.error 400 "bad request: peer_id is required", c)
    else
      (.partition "node partition state updated" peerID partition, c.partitionNode peerID partition)

def handleRecover (c : Chaos) (method : HttpMethod) : ChaosReply × Chaos :=
  if method ≠ .post then (.error 405 "method not allowed", c)
  else (.recover "all faults recovered", c.recover)

def handleStatus (c : Chaos) (ord : PeerOrder) (method : HttpMethod) : ChaosReply × Chaos :=
  if method ≠ .get then (.error 405 "method not allowed", c) else (.status (c.status ord), c)

/-- The handler of a path. -/
def serveHTTP (c : Chaos) (ord : PeerOrder) (req : ChaosRequest) : ChaosReply × Chaos :=
  match req.endpoint with
  | .failNode body => c.handleFailNode req.method body
  | .slowNode body => c.handleSlowNode req.method body
  | .partition body => c.handlePartition req.method body
  | .recover => c.handleRecover req.method
  | .status => c.handleStatus ord req.method

/-! ## The interceptors -/

/-- What an interceptor does with an RPC that arrives. -/
inductive Verdict where
  /-- It answers `Unavailable`. -/
  | reject (text : String)
  /-- It waits, and then calls the handler. -/
  | delay (latency : Duration)
  /-- It calls the handler. -/
  | proceed
  deriving DecidableEq

/-- `UnaryInterceptor` and `StreamInterceptor`. -/
def intercept (c : Chaos) : Verdict :=
  if c.failed then .reject "node is crashed (chaos engineering)"
  else if 0 < c.latencyMs then .delay c.latencyMs
  else .proceed

end Chaos

/-- An RPC in the interceptor: its number, and the time at which its wait is over. -/
structure DelayedCall where
  id : ℕ
  call : ServerCall
  due : Time
  deriving DecidableEq

/-- An RPC that was handled, and when. -/
structure HandledCall where
  id : ℕ
  call : ServerCall
  time : Time
  deriving DecidableEq

/-- A server behind its interceptor, with what became of the RPCs that have arrived.  The RPCs are
    the unary ones of `ServerCall`, which pass `UnaryInterceptor`; `Keys` and `Ping`, and the
    stream of `TransferKeys`, which passes `StreamInterceptor`, are left out. -/
structure GuardedServer where
  chaos : Chaos
  server : CacheServer
  arrived : ℕ
  delayed : List DelayedCall
  rejected : List ℕ
  canceled : List ℕ
  handled : List HandledCall

namespace GuardedServer

def start (server : CacheServer) : GuardedServer := ⟨.new, server, 0, [], [], [], []⟩

/-- The handler runs. -/
def handle (g : GuardedServer) (id : ℕ) (call : ServerCall) (now : Time) : GuardedServer :=
  { g with server := g.server.call now call, handled := g.handled ++ [⟨id, call, now⟩] }

/-- An RPC arrives. -/
def arrive (g : GuardedServer) (call : ServerCall) (now : Time) : GuardedServer :=
  let id := g.arrived
  let g := { g with arrived := id + 1 }
  match g.chaos.intercept with
  | .reject _ => { g with rejected := g.rejected ++ [id] }
  | .delay latency => { g with delayed := g.delayed ++ [⟨id, call, now + latency.toInt⟩] }
  | .proceed => g.handle id call now

inductive Act where
  /-- A request to the chaos endpoints. -/
  | http (ord : PeerOrder) (req : ChaosRequest)
  | arrive (call : ServerCall) (now : Time)
  /-- `time.After` fires for an RPC that waits. -/
  | elapse (d : DelayedCall) (now : Time)
  /-- The context of an RPC that waits is done. -/
  | cancel (d : DelayedCall)

def step (g : GuardedServer) : Act → GuardedServer
  | .http ord req => { g with chaos := (g.chaos.serveHTTP ord req).2 }
  | .arrive call now => g.arrive call now
  | .elapse d now => { g with delayed := g.delayed.erase d }.handle d.id d.call now
  | .cancel d => { g with delayed := g.delayed.erase d, canceled := g.canceled ++ [d.id] }

/-- Only RPCs that wait are resumed, not before their time. -/
def Enabled (g : GuardedServer) : Act → Prop
  | .elapse d now => d ∈ g.delayed ∧ d.due ≤ now
  | .cancel d => d ∈ g.delayed
  | .http _ _ | .arrive _ _ => True

end GuardedServer

end DistCache
