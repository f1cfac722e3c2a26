/-
  The gRPC handlers of a cache node (`internal/server/grpc_server.go`), as wired
  in `main`: the server, the replication manager and the ring callbacks share
  one ring and one store.

  `Get`, `Set`, `Delete` and `Expire` share a skeleton: raise the load counter,
  forward the request to the primary if this node may not serve it and has a
  connection to the primary, serve it on the local store otherwise, and lower
  the counter again.  A handler reads the clock once.
-/
import DistCache.Hotkey
import DistCache.Replication

namespace DistCache

/-- A request of the cache service that can be forwarded. -/
inductive Request where
  | get (req : GetRequest)
  | set (req : SetRequest)
  | delete (req : DeleteRequest)
  | expire (req : ExpireRequest)

inductive Response where
  | get (resp : GetResponse)
  | set (resp : SetResponse)
  | delete (resp : DeleteResponse)
  | expire (resp : ExpireResponse)
  deriving DecidableEq

/-- The key of a request. -/
def Request.key : Request → Key
  | .get req => req.key
  | .set req => req.key
  | .delete req => req.key
  | .expire req => req.key

/-- How a handler ends: the request is forwarded to its primary, or served on the
    local store, with the goroutines that replicate it. -/
inductive Handled where
  | proxy (primary : NodeID)
  | reply (resp : Response) (sends : List Send)
  deriving DecidableEq

/-- The state of a node behind its gRPC server. -/
structure CacheServer where
  nodeID : NodeID
  store : Store
  ring : Ring
  replicationMgr : Option ReplicationManager
  hotKeyMitigator : Option Mitigator

namespace CacheServer

/-! ## The skeleton -/

/-- The primary to forward a request to, if this node does not serve the key and
    has a connection to the primary. -/
def forwardTarget (cs : CacheServer) (serves : ReplicationManager → Ring → Key → Bool)
    (key : Key) : Option NodeID :=
  match cs.replicationMgr with
  | none => none
  | some rm =>
    if serves rm cs.ring key then none
    else
      match rm.getPrimary cs.ring key with
      | none => none
      | some primary =>
        if primary ≠ cs.nodeID ∧ primary ∈ rm.peerConns then some primary else none

/-- The skeleton of the handlers, around what is done on the local store. -/
def handling (cs : CacheServer) (serves : ReplicationManager → Ring → Key → Bool) (key : Key)
    (serve : CacheServer → Handled × CacheServer) : Handled × CacheServer :=
  let cs := { cs with ring := cs.ring.incrementLoad cs.nodeID }
  let (handled, cs) :=
    match cs.forwardTarget serves key with
    | some primary => (Handled.proxy primary, cs)
    | none => serve cs
  (handled, { cs with ring := cs.ring.decrementLoad cs.nodeID })

/-- Run a replication step if this node is the primary of the key. -/
def ifPrimary (cs : CacheServer) (key : Key)
    (f : ReplicationManager → ReplicationManager × List Send) : List Send × CacheServer :=
  match cs.replicationMgr with
  | none => ([], cs)
  | some rm =>
    if rm.isPrimary cs.ring key then ((f rm).2, { cs with replicationMgr := some (f rm).1 })
    else ([], cs)

/-! ## The local part of the handlers -/

/-- Run the mitigator of the node, if it has one, on a key just read. -/
def checkHot (cs : CacheServer) (now : Time) (key : Key) : Bool × CacheServer :=
  match cs.hotKeyMitigator with
  | none => (false, cs)
  | some mt =>
    let (isHot, mt, store) := mt.checkAndMitigate cs.store now key
    (isHot, { cs with hotKeyMitigator := some mt, store })

/-- The local part of `Get`; it never sets `TtlMs`. -/
def serveGet (cs : CacheServer) (now : Time) (req : GetRequest) : Handled × CacheServer :=
  match cs.store.get now req.key with
  | (none, store) => (.reply (.get ⟨req.key, [], false, 0, false⟩) [], { cs with store })
  | (some value, store) =>
    let (isHot, cs) := { cs with store }.checkHot now req.key
    (.reply (.get ⟨req.key, value, true, 0, isHot⟩) [], cs)

/-- The write of `Set`, to the shard copies as well if the key is mitigated. -/
def write (cs : CacheServer) (now : Time) (key : Key) (value : Value) (ttl : Duration) : Store :=
  match cs.hotKeyMitigator with
  | none => cs.store.set now key value ttl
  | some mt =>
    if mt.isMitigated key then mt.writeToShards cs.store now key value ttl
    else cs.store.set now key value ttl

def serveSet (cs : CacheServer) (now : Time) (req : SetRequest) : Handled × CacheServer :=
  let cs := { cs with store := cs.write now req.key req.value (ttlOfMs req.ttlMs) }
  let (sends, cs) := cs.ifPrimary req.key fun rm =>
    rm.replicateWrite cs.ring req.key req.value req.ttlMs
  (.reply (.set ⟨true⟩) sends, cs)

def serveDelete (cs : CacheServer) (req : DeleteRequest) : Handled × CacheServer :=
  let (existed, store) := cs.store.delete req.key
  let (sends, cs) := { cs with store }.ifPrimary req.key fun rm =>
    rm.replicateDelete cs.ring req.key
  (.reply (.delete ⟨existed⟩) sends, cs)

/-- The replication of `Expire`: the primary reads the value back and sends it
    with the new TTL. -/
def replicateExpire (cs : CacheServer) (now : Time) (req : ExpireRequest) :
    List Send × CacheServer :=
  match cs.replicationMgr with
  | none => ([], cs)
  | some rm =>
    if rm.isPrimary cs.ring req.key then
      match cs.store.get now req.key with
      | (none, store) => ([], { cs with store })
      | (some value, store) =>
        let (rm, sends) := rm.replicateWrite cs.ring req.key value req.ttlMs
        (sends, { cs with store, replicationMgr := some rm })
    else ([], cs)

def serveExpire (cs : CacheServer) (now : Time) (req : ExpireRequest) : Handled × CacheServer :=
  match cs.store.expire now req.key (ttlOfMs req.ttlMs) with
  | (false, store) => (.reply (.expire ⟨false⟩) [], { cs with store })
  | (true, store) =>
    let (sends, cs) := { cs with store }.replicateExpire now req
    (.reply (.expire ⟨true⟩) sends, cs)

/-! ## The handlers -/

/-- `Get`: served by every replica. -/
def get (cs : CacheServer) (now : Time) (req : GetRequest) : Handled × CacheServer :=
  cs.handling (fun rm => rm.isReplica) req.key fun cs => cs.serveGet now req

/-- `Set`: served by the primary. -/
def set (cs : CacheServer) (now : Time) (req : SetRequest) : Handled × CacheServer :=
  cs.handling (fun rm => rm.isPrimary) req.key fun cs => cs.serveSet now req

/-- `Delete`: served by the primary. -/
def delete (cs : CacheServer) (req : DeleteRequest) : Handled × CacheServer :=
  cs.handling (fun rm => rm.isPrimary) req.key fun cs => cs.serveDelete req

/-- `Expire`: served by the primary. -/
def expire (cs : CacheServer) (now : Time) (req : ExpireRequest) : Handled × CacheServer :=
  cs.handling (fun rm => rm.isPrimary) req.key fun cs => cs.serveExpire now req

/-- The handler of a request. -/
def handle (cs : CacheServer) (now : Time) : Request → Handled × CacheServer
  | .get req => cs.get now req
  | .set req => cs.set now req
  | .delete req => cs.delete req
  | .expire req => cs.expire now req

/-- `Replicate`: the sequence number is not looked at. -/
def replicate (cs : CacheServer) (now : Time) (req : ReplicateRequest) : CacheServer :=
  match req.op with
  | .set => { cs with store := cs.store.set now req.key req.value (ttlOfMs req.ttlMs) }
  | .delete => { cs with store := (cs.store.delete req.key).2 }
  | .unknown _ => cs

end CacheServer

end DistCache
