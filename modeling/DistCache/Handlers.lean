/-
  The handlers of the write requests in steps.

  After its operation on the store, a handler of the primary numbers a replication
  message; `Expire` reads the value back before.  Each of these is atomic, and the steps of
  concurrent requests interleave: what the handlers have still to do is a list (`pending`).
  The load counters, which no step reads, are left out.
-/
import DistCache.Server

namespace DistCache

/-- What a handler has still to do after its operation on the store. -/
inductive Pending where
  | replicateWrite (key : Key) (value : Value) (ttlMs : Int64)
  | replicateDelete (key : Key)
  /-- the `store.Get` of `Expire` -/
  | readBack (key : Key) (ttlMs : Int64)
  deriving DecidableEq

def Pending.key : Pending → Key
  | .replicateWrite key _ _ => key
  | .replicateDelete key => key
  | .readBack key _ => key

/-- A node with what its handlers have still to do, and the goroutines they have started. -/
structure Busy where
  server : CacheServer
  pending : List Pending
  sends : List Send

namespace Busy

/-- The node after an operation on its store. -/
def withStore (b : Busy) (store : Store) : Busy := { b with server := { b.server with store } }

/-- Go on with `p` if this node is the primary of its key. -/
def ifPrimary (b : Busy) (p : Pending) : Busy :=
  match b.server.replicationMgr with
  | none => b
  | some rm =>
    if rm.isPrimary b.server.ring p.key then { b with pending := b.pending ++ [p] } else b

/-- Number a replication message and start its goroutines. -/
def number (b : Busy) (f : ReplicationManager → ReplicationManager × List Send) : Busy :=
  match b.server.replicationMgr with
  | none => b
  | some rm =>
    { b with
      server := { b.server with replicationMgr := some (f rm).1 }
      sends := b.sends ++ (f rm).2 }

/-- The handler of a request, up to its operation on the store; `Get` ends with it. -/
def start (b : Busy) (now : Time) : Request → Busy
  | .get req => { b with server := (b.server.serveGet now req).2 }
  | .set req =>
    (b.withStore (b.server.write now req.key req.value (ttlOfMs req.ttlMs))).ifPrimary
      (.replicateWrite req.key req.value req.ttlMs)
  | .delete req =>
    (b.withStore (b.server.store.delete req.key).2).ifPrimary (.replicateDelete req.key)
  | .expire req =>
    match b.server.store.expire now req.key (ttlOfMs req.ttlMs) with
    | (false, store) => b.withStore store
    | (true, store) => (b.withStore store).ifPrimary (.readBack req.key req.ttlMs)

/-- The next step of a handler. -/
def resume (b : Busy) (now : Time) (p : Pending) : Busy :=
  let b := { b with pending := b.pending.erase p }
  match p with
  | .replicateWrite key value ttlMs =>
    b.number fun rm => rm.replicateWrite b.server.ring key value ttlMs
  | .replicateDelete key => b.number fun rm => rm.replicateDelete b.server.ring key
  | .readBack key ttlMs =>
    match b.server.store.get now key with
    | (none, store) => b.withStore store
    | (some value, store) =>
      { b.withStore store with pending := b.pending ++ [.replicateWrite key value ttlMs] }

/-! ## Runs -/

inductive Act where
  | start (now : Time) (req : Request)
  | resume (now : Time) (p : Pending)

def step (b : Busy) : Act → Busy
  | .start now req => b.start now req
  | .resume now p => b.resume now p

/-- Write requests for `k` arrive, and handlers go on. -/
def Enabled (k : Key) (b : Busy) : Act → Prop
  | .start _ (.get _) => False
  | .start _ req => req.key = k
  | .resume _ p => p ∈ b.pending

instance (k : Key) (b : Busy) : ∀ a, Decidable (b.Enabled k a)
  | .start _ (.get _) => inferInstanceAs (Decidable False)
  | .start _ (.set req) => inferInstanceAs (Decidable (req.key = k))
  | .start _ (.delete req) => inferInstanceAs (Decidable (req.key = k))
  | .start _ (.expire req) => inferInstanceAs (Decidable (req.key = k))
  | .resume _ p => inferInstanceAs (Decidable (p ∈ b.pending))

end Busy

end DistCache
