/-
  The replication manager as it runs (`internal/cluster/replication.go`): its
  connection objects, the goroutines `sendReplicate`, and the channel of
  replication events.

  `ReplicationManager` knows a connection by its address.  Here every successful
  dial yields a new connection object, a number, and the calls of its `Close` are
  recorded.  A goroutine looks its connection up under the lock, and sends and
  emits its event later, when the connection may be closed.  A panic ends the
  process; it is the `fault` of the channel, whether it comes from the channel or
  from the `make` of `getSecondaries`.
-/
import DistCache.Replication
import DistCache.Lib.Channel

namespace DistCache

/-- A replication operation that occurred; its timestamp is not read. -/
structure ReplicationEvent where
  key : Key
  operation : Operation
  target : NodeID
  success : Bool
  deriving DecidableEq

/-- A goroutine `sendReplicate` that has looked its connection up. -/
structure Flight where
  send : Send
  conn : Option ℕ
  deriving DecidableEq

/-- The event of a `sendReplicate`; `ok` tells whether the RPC succeeds, if there
    is a connection to send it on. -/
def Flight.event (fl : Flight) (ok : Bool) : ReplicationEvent where
  key := fl.send.req.key
  operation := fl.send.req.op
  target := fl.send.nodeID
  success := fl.conn.isSome && ok

structure Replicator where
  rm : ReplicationManager
  /-- The connection objects in `peerConns`. -/
  conns : GoMap NodeID ℕ
  /-- The number of connections dialed. -/
  dialed : ℕ
  /-- The connections closed, one entry for each call. -/
  hungUp : List ℕ
  /-- The goroutines started. -/
  started : List Send
  /-- Those of them that have not looked up their connection. -/
  sends : List Send
  flights : List Flight
  /-- Those that reached `emitEvent`, with the outcome of their RPC. -/
  finished : List (Flight × Bool)
  replicationEvents : Lib.Feed ReplicationEvent 1000

namespace Replicator

/-- `NewReplicationManager`. -/
def new (selfID : NodeID) (replicaCount : ℤ) : Replicator where
  rm := .new selfID replicaCount
  conns := ∅
  dialed := 0
  hungUp := []
  started := []
  sends := []
  flights := []
  finished := []
  replicationEvents := .new

/-- `ConnectToPeer`. -/
def connectToPeer (r : Replicator) (dial : GoString → Bool) (nodeID : NodeID) (addr : GoString) :
    Replicator :=
  if nodeID ∈ r.conns then r
  else if dial addr then
    { r with
      rm := r.rm.connectToPeer dial nodeID addr
      conns := r.conns.insert nodeID r.dialed
      dialed := r.dialed + 1 }
  else r

/-- `DisconnectPeer`, and the locked part of `HandleNodeFailure`. -/
def disconnectPeer (r : Replicator) (nodeID : NodeID) : Replicator :=
  match r.conns.lookup nodeID with
  | none => r
  | some conn =>
    { r with
      rm := { r.rm with peerConns := r.rm.peerConns.erase nodeID }
      conns := r.conns.erase nodeID
      hungUp := r.hungUp ++ [conn] }

/-- The goroutines of a replication start. -/
def start (r : Replicator) (out : ReplicationManager × List Send) : Replicator :=
  { r with rm := out.1, started := r.started ++ out.2, sends := r.sends ++ out.2 }

/-- `ReplicateWrite` or `ReplicateDelete` of a key, which panics in `getSecondaries` if the
    capacity is negative. -/
def replicate (r : Replicator) (ring : Ring) (key : Key) (out : ReplicationManager × List Send) :
    Replicator :=
  if r.rm.secondariesCapacity ring key < 0 then
    { r with replicationEvents := r.replicationEvents.step .abort }
  else r.start out

/-- `GetPeerConn`. -/
def getPeerConn (r : Replicator) (nodeID : NodeID) : Option ℕ := r.conns.lookup nodeID

/-- `sendReplicate` up to its lookup. -/
def lookup (r : Replicator) (send : Send) : Replicator :=
  { r with
    sends := r.sends.erase send
    flights := r.flights ++ [⟨send, r.getPeerConn send.nodeID⟩] }

/-- `emitEvent`. -/
def emitEvent (r : Replicator) (event : ReplicationEvent) : Replicator :=
  { r with replicationEvents := r.replicationEvents.step (.offer event) }

/-- `sendReplicate` after its lookup. -/
def finish (r : Replicator) (fl : Flight) (ok : Bool) : Replicator :=
  { r with
    flights := r.flights.erase fl
    finished := r.finished ++ [(fl, ok)] }.emitEvent (fl.event ok)

/-- `Close`: hang up in the order of a `range` loop, then close the channel. -/
def close (r : Replicator) (ord : RangeOrder NodeID ℕ) : Replicator :=
  { r with
    rm := { r.rm with peerConns := ∅ }
    conns := ∅
    hungUp := r.hungUp ++ (ord.list r.conns).map Sigma.snd
    replicationEvents := r.replicationEvents.step .close }

inductive Act where
  | connectToPeer (dial : GoString → Bool) (nodeID : NodeID) (addr : GoString)
  | disconnectPeer (nodeID : NodeID)
  | replicateWrite (ring : Ring) (key : Key) (value : Value) (ttlMs : Int64)
  | replicateDelete (ring : Ring) (key : Key)
  /-- The part of `HandleNodeFailure` after its locked part. -/
  | reReplicate (ring : Ring) (ord : RangeOrder Key Entry) (store : Store) (now : Time)
  | lookup (send : Send)
  | finish (fl : Flight) (ok : Bool)
  /-- A receive from `Events`. -/
  | receive
  | close (ord : RangeOrder NodeID ℕ)

def step (r : Replicator) (a : Act) : Replicator :=
  if r.replicationEvents.fault then r
  else
    match a with
    | .connectToPeer dial nodeID addr => r.connectToPeer dial nodeID addr
    | .disconnectPeer nodeID => r.disconnectPeer nodeID
    | .replicateWrite ring key value ttlMs =>
      r.replicate ring key (r.rm.replicateWrite ring key value ttlMs)
    | .replicateDelete ring key => r.replicate ring key (r.rm.replicateDelete ring key)
    -- a key is replicated again only by its primary, which is in the ring
    | .reReplicate ring ord store now => r.start (r.rm.reReplicateForDeadNode ring ord store now)
    | .lookup send => r.lookup send
    | .finish fl ok => r.finish fl ok
    | .receive => { r with replicationEvents := r.replicationEvents.step .receive }
    | .close ord => r.close ord

/-- A goroutine takes a step only if it is at that step. -/
def Enabled (r : Replicator) : Act → Prop
  | .lookup send => send ∈ r.sends
  | .finish fl _ => fl ∈ r.flights
  | _ => True

instance (r : Replicator) (a : Act) : Decidable (r.Enabled a) := by
  cases a <;> unfold Enabled <;> infer_instance

end Replicator

end DistCache
