/-
  The messages of the cache service (`api/proto/messages.go`) and the replication
  manager (`internal/cluster/replication.go`).

  The manager shares the ring and the store of its node, which are passed to its
  operations.  `ReplicateWrite` and `ReplicateDelete` start one goroutine per
  secondary; the goroutines started are returned as a list of `Send`s.
-/
import DistCache.Ring
import DistCache.Store

namespace DistCache

/-! ## Messages -/

structure GetRequest where
  key : Key

structure GetResponse where
  key : Key
  value : Value
  found : Bool
  ttlMs : Int64
  isHot : Bool
  deriving DecidableEq

structure SetRequest where
  key : Key
  value : Value
  ttlMs : Int64

structure SetResponse where
  success : Bool
  deriving DecidableEq

structure DeleteRequest where
  key : Key

structure DeleteResponse where
  existed : Bool
  deriving DecidableEq

structure ExpireRequest where
  key : Key
  ttlMs : Int64

structure ExpireResponse where
  found : Bool
  deriving DecidableEq

/-- The type of a replicated operation; any other code is ignored by the
    receiver. -/
inductive Operation where
  | set
  | delete
  | unknown (code : ℤ)
  deriving DecidableEq

/-- A replicated write, numbered by its source. -/
structure ReplicateRequest where
  key : Key
  value : Value
  ttlMs : Int64
  sequence : UInt64
  sourceNode : NodeID
  op : Operation
  deriving DecidableEq

/-- A goroutine running `sendReplicate(nodeID, req)`. -/
structure Send where
  nodeID : NodeID
  req : ReplicateRequest
  deriving DecidableEq

/-! ## The replication manager -/

/-- The replication manager; a peer connection is known by its address. -/
structure ReplicationManager where
  selfID : NodeID
  replicaCount : ℕ
  sequence : UInt64
  peerConns : GoMap NodeID GoString
  replicaCount_pos : 0 < replicaCount

namespace ReplicationManager

/-- `NewReplicationManager`. -/
def new (selfID : NodeID) (replicaCount : ℤ) : ReplicationManager where
  selfID := selfID
  replicaCount := if replicaCount < 1 then 3 else replicaCount.toNat
  sequence := 0
  peerConns := ∅
  replicaCount_pos := by split_ifs <;> omega

variable (rm : ReplicationManager) (ring : Ring)

/-- `IsPrimary`. -/
def isPrimary (key : Key) : Bool := (ring.getNodes key 1).head? = some rm.selfID

/-- `IsReplica`. -/
def isReplica (key : Key) : Bool := rm.selfID ∈ ring.getNodes key rm.replicaCount

/-- `GetPrimary`. -/
def getPrimary (_rm : ReplicationManager) (ring : Ring) (key : Key) : Option NodeID :=
  (ring.getNodes key 1).head?

/-- `getSecondaries`: the replica set without the node itself. -/
def getSecondaries (key : Key) : List NodeID :=
  (ring.getNodes key rm.replicaCount).filter fun nodeID => nodeID ≠ rm.selfID

/-- The capacity that `getSecondaries` allocates. -/
def secondariesCapacity (key : Key) : ℤ := ((ring.getNodes key rm.replicaCount).length : ℤ) - 1

/-- Number a request, and start one send per secondary. -/
def replicate (key : Key) (req : UInt64 → ReplicateRequest) : ReplicationManager × List Send :=
  match rm.getSecondaries ring key with
  | [] => (rm, [])
  | replicas =>
    ({ rm with sequence := rm.sequence + 1 },
      replicas.map fun nodeID => ⟨nodeID, req (rm.sequence + 1)⟩)

/-- `ReplicateWrite`. -/
def replicateWrite (key : Key) (value : Value) (ttlMs : Int64) :
    ReplicationManager × List Send :=
  rm.replicate ring key fun seq => ⟨key, value, ttlMs, seq, rm.selfID, .set⟩

/-- `ReplicateDelete`. -/
def replicateDelete (key : Key) : ReplicationManager × List Send :=
  rm.replicate ring key fun seq => ⟨key, [], 0, seq, rm.selfID, .delete⟩

/-- `ConnectToPeer`; `dial` tells whether dialing an address succeeds. -/
def connectToPeer (dial : GoString → Bool) (nodeID : NodeID) (addr : GoString) :
    ReplicationManager :=
  if nodeID ∈ rm.peerConns then rm
  else if dial addr then { rm with peerConns := rm.peerConns.insert nodeID addr }
  else rm

/-- `reReplicateForDeadNode`: replicate the live keys this node is primary for. -/
def reReplicateForDeadNode (ord : RangeOrder Key Entry) (store : Store) (now : Time) :
    ReplicationManager × List Send :=
  store.forEach ord now
    (fun (acc : ReplicationManager × List Send) key value ttl =>
      if acc.1.isPrimary ring key then
        let (rm, sends) := acc.1.replicateWrite ring key value ttl.milliseconds
        ((rm, acc.2 ++ sends), true)
      else (acc, true))
    (rm, [])

/-- `HandleNodeFailure`: drop the connection, then re-replicate. -/
def handleNodeFailure (ord : RangeOrder Key Entry) (store : Store) (now : Time)
    (deadNodeID : NodeID) : ReplicationManager × List Send :=
  { rm with peerConns := rm.peerConns.erase deadNodeID }.reReplicateForDeadNode ring ord store now

end ReplicationManager

end DistCache
