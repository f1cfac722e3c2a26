/-
  A whole node, as `cmd/cachenode/main.go` puts it together: the loops and timers of
  the membership, the callbacks of its events, and the gRPC handlers, on one ring and
  one store.

  The sweeper and the decay of the hot key detector, which neither read nor write the
  ring or the membership, take no step.  A gRPC handler is one transition, and so is the
  scan of the store by `reReplicateForDeadNode`.
-/
import DistCache.Cluster
import DistCache.Swim
import DistCache.Wiring

namespace DistCache

/-- The callback of an event, with what it does next. -/
structure Callback where
  event : MembershipEvent
  stage : Wired.Stage
  deriving DecidableEq

/-- A node: its membership with the two loops, its server, the events whose callback has
    been started, in that order, the callbacks that have not ended, and the replication
    goroutines started so far. -/
structure Node where
  swim : Swim
  server : CacheServer
  handled : List MembershipEvent
  running : List Callback
  sends : List Send

namespace Node

variable (env : Env) (resolve : GoString → Option UDPAddr)

/-- The node that `main` starts. -/
def start (nodeID : NodeID) (addrs : Addrs) (inj : Option FaultInjector)
    (vnodeCount replicaCount : ℤ) (maxLoadFactor : ℚ) : Node where
  swim := .start nodeID addrs inj
  server := (Wired.start env nodeID addrs inj vnodeCount replicaCount maxLoadFactor).server
  handled := []
  running := []
  sends := []

/-- What the callbacks work on. -/
def wired (n : Node) : Wired := ⟨n.swim.m, n.server, n.sends⟩

/-- The callbacks after a section of the one at `i`. -/
def advance (running : List Callback) (i : ℕ) (cb : Callback) : Option Wired.Stage → List Callback
  | none => running.eraseIdx i
  | some stage => running.set i { cb with stage }

inductive Act where
  | swim (a : Swim.Act)
  /-- The callback for an event starts. -/
  | handle (event : MembershipEvent)
  /-- The callback number `i` goes on. -/
  | resume (i : ℕ) (ord : RangeOrder Key Entry) (now : Time)
  | request (now : Time) (req : Request)
  /-- A replication message arrives. -/
  | replicate (now : Time) (req : ReplicateRequest)

def step (n : Node) : Act → Node
  | .swim a => { n with swim := n.swim.step resolve a }
  | .handle event =>
    let (w, stage) := n.wired.startEvent env event
    { n with
      server := w.server
      sends := w.sends
      handled := n.handled ++ [event]
      running := n.running ++ stage.toList.map fun stage => ⟨event, stage⟩ }
  | .resume i ord now =>
    match n.running[i]? with
    | none => n
    | some cb =>
      let (w, stage) := n.wired.resumeEvent env ord now cb.event cb.stage
      { n with
        server := w.server
        sends := w.sends
        running := advance n.running i cb stage }
  | .request now req =>
    let (handled, server) := n.server.handle now req
    { n with server, sends := n.sends ++ handled.sends }
  | .replicate now req => { n with server := n.server.replicate now req }

/-- A callback is started once for each event emitted. -/
def Enabled (n : Node) : Act → Prop
  | .handle event => n.handled.count event < n.swim.m.emitted.count event
  | _ => True

instance (n : Node) : ∀ a, Decidable (n.Enabled a)
  | .handle event =>
    inferInstanceAs (Decidable (n.handled.count event < n.swim.m.emitted.count event))
  | .swim _ | .resume _ _ _ | .request _ _ | .replicate _ _ => inferInstanceAs (Decidable True)

end Node

end DistCache
