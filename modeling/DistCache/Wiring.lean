/-
  A node wired as in `cmd/cachenode/main.go`: the membership events change the
  ring, and the ring changes the peer connections.

  The goroutine of an event runs the callback of `SetOnEvent` at some later
  point, in no particular order.  The callback takes and releases the locks of the
  ring and of the replication manager: `onEvent` is the function that it computes
  when nothing comes between, and `startEvent` and `resumeEvent` are its sections.
-/
import DistCache.Membership
import DistCache.Server

namespace DistCache

/-- What the callbacks use besides the state of the node: `sort.Slice`, and whether
    dialing an address succeeds. -/
structure Env where
  sort : SortSlice
  dial : GoString → Bool

/-- A node with its membership, and the replication goroutines started by the callbacks. -/
structure Wired where
  m : Membership
  server : CacheServer
  sends : List Send

namespace Wired

variable (env : Env)

/-- The node that `main` starts: its ring holds the node itself. -/
def start (nodeID : NodeID) (addrs : Addrs) (inj : Option FaultInjector)
    (vnodeCount replicaCount : ℤ) (maxLoadFactor : ℚ) : Wired where
  m := .start nodeID addrs inj
  server :=
    { nodeID
      store := .newWithShards 256
      ring := ((Ring.new vnodeCount maxLoadFactor).addNode env.sort nodeID).1
      replicationMgr := some (.new nodeID replicaCount)
      hotKeyMitigator := some (.new (.new 100) 4) }
  sends := []

/-- Run an operation of the replication manager. -/
def withManager (w : Wired) (f : ReplicationManager → ReplicationManager × List Send) : Wired :=
  match w.server.replicationMgr with
  | none => w
  | some rm =>
    { w with
      server := { w.server with replicationMgr := some (f rm).1 }
      sends := w.sends ++ (f rm).2 }

/-- `ConnectToPeer`. -/
def connect (w : Wired) (nodeID : NodeID) (addr : GoString) : Wired :=
  w.withManager fun rm => (rm.connectToPeer env.dial nodeID addr, [])

/-- The callback of `SetOnNodeAdded`. -/
def onNodeAdded (w : Wired) (nodeID : NodeID) : Wired :=
  match w.m.registry.lookup nodeID with
  | none => w
  | some info => if nodeID ≠ w.server.nodeID then w.connect env nodeID info.addrs.grpcAddr else w

/-- `ring.AddNode`, with its callback. -/
def addNode (w : Wired) (nodeID : NodeID) : Wired :=
  let (ring, added) := w.server.ring.addNode env.sort nodeID
  let w := { w with server := { w.server with ring } }
  if added then w.onNodeAdded env nodeID else w

/-- The callback of `SetOnNodeRemoved`. -/
def onNodeRemoved (w : Wired) (ord : RangeOrder Key Entry) (now : Time) (nodeID : NodeID) : Wired :=
  w.withManager fun rm => rm.handleNodeFailure w.server.ring ord w.server.store now nodeID

/-- `ring.RemoveNode`, with its callback. -/
def removeNode (w : Wired) (ord : RangeOrder Key Entry) (now : Time) (nodeID : NodeID) : Wired :=
  let (ring, removed) := w.server.ring.removeNode nodeID
  let w := { w with server := { w.server with ring } }
  if removed then w.onNodeRemoved ord now nodeID else w

/-- The callback of `SetOnEvent`, if it is not interrupted. -/
def onEvent (w : Wired) (ord : RangeOrder Key Entry) (now : Time) (event : MembershipEvent) :
    Wired :=
  match event.type with
  | .join | .alive =>
    match w.m.registry.lookup event.nodeID with
    | none => w
    | some info =>
      let w := w.addNode env event.nodeID
      if event.nodeID ≠ w.server.nodeID then
        w.connect env event.nodeID info.addrs.grpcAddr
      else w
  | .dead | .left => w.removeNode ord now event.nodeID
  | .suspect => w

/-! ## The sections of a callback -/

/-- What the callback of an event that has been started does next. -/
inductive Stage where
  /-- The ring has a new node: run the callback of `AddNode`. -/
  | added (addr : GoString)
  /-- `AddNode` has returned: connect to the node. -/
  | connect (addr : GoString)
  /-- The ring has lost the node: close the connection, in the callback of `RemoveNode`. -/
  | removed
  /-- The connection is closed: re-replicate. -/
  | closed
  deriving DecidableEq

/-- The callback up to the end of the first section under the lock of the ring.  The record of the
    node is read together with it: it is never deleted, and its address never changes. -/
def startEvent (w : Wired) (event : MembershipEvent) : Wired × Option Stage :=
  match event.type with
  | .join | .alive =>
    match w.m.registry.lookup event.nodeID with
    | none => (w, none)
    | some info =>
      let (ring, added) := w.server.ring.addNode env.sort event.nodeID
      ({ w with server := { w.server with ring } },
        some (if added then .added info.addrs.grpcAddr else .connect info.addrs.grpcAddr))
  | .dead | .left =>
    let (ring, removed) := w.server.ring.removeNode event.nodeID
    ({ w with server := { w.server with ring } }, if removed then some .removed else none)
  | .suspect => (w, none)

/-- The next section of the callback. -/
def resumeEvent (w : Wired) (ord : RangeOrder Key Entry) (now : Time) (event : MembershipEvent) :
    Stage → Wired × Option Stage
  | .added addr => (w.onNodeAdded env event.nodeID, some (.connect addr))
  | .connect addr =>
    (if event.nodeID ≠ w.server.nodeID then w.connect env event.nodeID addr else w, none)
  | .removed =>
    (w.withManager fun rm => ({ rm with peerConns := rm.peerConns.erase event.nodeID }, []),
      some .closed)
  | .closed =>
    (w.withManager fun rm => rm.reReplicateForDeadNode w.server.ring ord w.server.store now, none)

end Wired

end DistCache
