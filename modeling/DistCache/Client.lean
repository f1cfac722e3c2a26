/-
  The client (`client/client.go`) with its cache, against a single server.

  `NewClient` builds its own ring from the nodes it is given, with 150 vnodes for each of them.
  `Get` looks into the client-side cache, asks the server and stores a hot answer in the
  cache; `Set` and `Delete` drop the key from the cache before they ask the server.  Every
  connection leads to the one server, and an RPC may fail before or after the server has executed
  it.  Keys are taken to be valid UTF-8: the JSON codec of the RPCs (`api/proto/codec.go`) replaces
  other bytes, so that the server would get another key.

  Calls one after another are steps of `Client.step`.  In a `Session`, the calls for one key
  are concurrent, and each access to the cache or to the server is a step.
-/
import DistCache.L1
import DistCache.Server

namespace DistCache

inductive ClientError where
  | noNodes
  | noConnection (nodeID : NodeID)
  | rpc
  deriving DecidableEq

structure Client where
  ring : Ring
  conns : GoMap NodeID GoString
  l1Cache : Option L1Cache

/-- `NewClient` fails: "connecting to nodeID (addr)". -/
structure ConnectError where
  nodeID : NodeID
  addr : GoString
  deriving DecidableEq

/-- What becomes of an RPC: it is answered, or it fails without being executed, or after
    that. -/
inductive Rpc where
  | answered
  | lost
  | unanswered
  deriving DecidableEq

/-- An RPC to a server that has no peer to forward it to.  The server gets the request as it was
    sent: its key is valid UTF-8. -/
def CacheServer.invoke (cs : CacheServer) (rpc : Rpc) (now : Time) (req : Request) :
    Option Response × CacheServer :=
  match rpc, cs.handle now req with
  | .lost, _ => (none, cs)
  | .unanswered, (_, cs) => (none, cs)
  | .answered, (.proxy _, cs) => (none, cs)
  | .answered, (.reply resp _, cs) => (some resp, cs)

/-- When a call looks into the cache, when the server executes it, and when it returns. -/
structure Timing where
  start : Time
  serve : Time
  finish : Time

namespace Client

/-- `addNode`; `dial` tells whether the connection is established in time. -/
def addNode (S : SortSlice) (dial : NodeID → GoString → Bool) (c : Client) (nodeID : NodeID)
    (addr : GoString) : Option Client :=
  if dial nodeID addr then
    some { c with
      conns := c.conns.insert nodeID addr
      ring := (c.ring.addNode S nodeID).1 }
  else none

/-- The loop of `NewClient` over the nodes. -/
def addNodes (S : SortSlice) (dial : NodeID → GoString → Bool) :
    Client → List (Σ _ : NodeID, GoString) → Except ConnectError Client
  | c, [] => .ok c
  | c, ⟨nodeID, addr⟩ :: rest =>
    match c.addNode S dial nodeID addr with
    | none => .error ⟨nodeID, addr⟩
    | some c => addNodes S dial c rest

/-- `NewClient`, with or without the option `WithL1Cache`. -/
def new (S : SortSlice) (ord : RangeOrder NodeID GoString) (dial : NodeID → GoString → Bool)
    (nodes : GoMap NodeID GoString) (l1Cache : Option L1Cache) : Except ConnectError Client :=
  addNodes S dial ⟨.new 150 (1 / 4), ∅, l1Cache⟩ (ord.list nodes)

variable (c : Client)

/-- `getConn`: the node that a key is routed to. -/
def getConn (key : Key) : Except ClientError NodeID :=
  match c.ring.getNode key with
  | none => .error .noNodes
  | some nodeID => if nodeID ∈ c.conns then .ok nodeID else .error (.noConnection nodeID)

/-! ## The accesses of a call -/

/-- The cache lookup of `Get`. -/
def l1Get (now : Time) (key : Key) : Option Value × Client :=
  match c.l1Cache with
  | none => (none, c)
  | some l1 => ((l1.get now key).1, { c with l1Cache := some (l1.get now key).2 })

/-- The invalidation of `Set` and `Delete`. -/
def l1Delete (key : Key) : Client := { c with l1Cache := c.l1Cache.map fun l1 => l1.delete key }

/-- The answer is stored in the cache if the key is hot. -/
def l1Store (now : Time) (key : Key) (resp : GetResponse) : Client :=
  if resp.found && resp.isHot then
    { c with
      l1Cache := c.l1Cache.map fun l1 => l1.set now key resp.value (resp.ttlMs * millisecond) }
  else c

/-- Ask the server. -/
def ask (cs : CacheServer) (rpc : Rpc) (now : Time) (req : Request) :
    Except ClientError Response × CacheServer :=
  match c.getConn req.key with
  | .error err => (.error err, cs)
  | .ok _ =>
    match cs.invoke rpc now req with
    | (none, cs) => (.error .rpc, cs)
    | (some resp, cs) => (.ok resp, cs)

/-! ## The calls -/

/-- `Get`; a response of another type does not occur. -/
def get (cs : CacheServer) (rpc : Rpc) (t : Timing) (key : Key) :
    Except ClientError (Value × Bool) × Client × CacheServer :=
  match c.l1Get t.start key with
  | (some value, c) => (.ok (value, true), c, cs)
  | (none, c) =>
    match c.ask cs rpc t.serve (.get ⟨key⟩) with
    | (.ok (.get resp), cs) => (.ok (resp.value, resp.found), c.l1Store t.finish key resp, cs)
    | (.ok _, cs) => (.error .rpc, c, cs)
    | (.error err, cs) => (.error err, c, cs)

/-- `Set`. -/
def set (cs : CacheServer) (rpc : Rpc) (t : Timing) (key : Key) (value : Value) (ttl : Duration) :
    Except ClientError Unit × Client × CacheServer :=
  let c := c.l1Delete key
  match c.ask cs rpc t.serve (.set ⟨key, value, ttl.milliseconds⟩) with
  | (.ok _, cs) => (.ok (), c, cs)
  | (.error err, cs) => (.error err, c, cs)

/-- `Delete`; a response of another type does not occur. -/
def delete (cs : CacheServer) (rpc : Rpc) (t : Timing) (key : Key) :
    Except ClientError Bool × Client × CacheServer :=
  let c := c.l1Delete key
  match c.ask cs rpc t.serve (.delete ⟨key⟩) with
  | (.ok (.delete resp), cs) => (.ok resp.existed, c, cs)
  | (.ok _, cs) => (.error .rpc, c, cs)
  | (.error err, cs) => (.error err, c, cs)

/-- The operation of a call. -/
inductive Op where
  | get (key : Key)
  | set (key : Key) (value : Value) (ttl : Duration)
  | delete (key : Key)

def Op.key : Op → Key
  | .get key => key
  | .set key _ _ => key
  | .delete key => key

structure Call where
  op : Op
  rpc : Rpc
  timing : Timing

/-- The client and the server after a call. -/
def step (s : Client × CacheServer) (call : Call) : Client × CacheServer :=
  match call.op with
  | .get key => (s.1.get s.2 call.rpc call.timing key).2
  | .set key value ttl => (s.1.set s.2 call.rpc call.timing key value ttl).2
  | .delete key => (s.1.delete s.2 call.rpc call.timing key).2

end Client

/-! ## Concurrent calls for one key -/

/-- A write of the key. -/
inductive ClientWrite where
  | set (value : Value) (ttl : Duration)
  | delete
  deriving DecidableEq

def ClientWrite.request (k : Key) : ClientWrite → Request
  | .set value ttl => .set ⟨k, value, ttl.milliseconds⟩
  | .delete => .delete ⟨k⟩

/-- A call in progress.  A `Get` knows the writes that had returned when it started, and
    how many had been executed when it was answered. -/
inductive InFlight where
  /-- not in the cache -/
  | get (since : List ℕ)
  | answered (since : List ℕ) (version : ℕ) (resp : GetResponse)
  /-- the key is dropped from the cache -/
  | write (w : ClientWrite)
  /-- as number `i` of the writes -/
  | executed (i : ℕ)
  deriving DecidableEq

/-- What a `Get` has returned, and the writes that had returned when it started. -/
structure GetResult where
  since : List ℕ
  value : Value
  found : Bool
  deriving DecidableEq

/-- The calls for one key: those in progress, the writes in the order in which the server
    executed them, the numbers of those that have returned, and the results of the `Get`s. -/
structure Session where
  client : Client
  server : CacheServer
  inFlight : List InFlight
  log : List ClientWrite
  returned : List ℕ
  results : List GetResult

namespace Session

inductive Act where
  /-- `Get` starts and looks into the cache -/
  | lookup (now : Time)
  /-- `Set` or `Delete` starts and drops the key from the cache -/
  | invalidate (w : ClientWrite)
  /-- the server executes a call -/
  | serve (now : Time) (call : InFlight)
  /-- an answered call returns; `Get` may store the answer in the cache first -/
  | finish (now : Time) (call : InFlight)
  /-- a call fails, and is not executed any more -/
  | drop (call : InFlight)
  deriving DecidableEq

variable (k : Key)

/-- A call goes on. -/
def replace (s : Session) (call : InFlight) (calls : List InFlight) : Session :=
  { s with inFlight := s.inFlight.erase call ++ calls }

def serve (s : Session) (now : Time) : InFlight → Session
  | .get since =>
    match s.server.invoke .answered now (.get ⟨k⟩) with
    | (some (.get resp), server) =>
      { s.replace (.get since) [.answered since s.log.length resp] with server }
    | (_, server) => { s.replace (.get since) [] with server }
  | .write w =>
    { s.replace (.write w) [.executed s.log.length] with
      server := (s.server.invoke .answered now (w.request k)).2
      log := s.log ++ [w] }
  | _ => s

def finish (s : Session) (now : Time) : InFlight → Session
  | .answered since version resp =>
    { s.replace (.answered since version resp) [] with
      client := s.client.l1Store now k resp
      results := s.results ++ [⟨since, resp.value, resp.found⟩] }
  | .executed i => { s.replace (.executed i) [] with returned := s.returned ++ [i] }
  | _ => s

def step (s : Session) : Act → Session
  | .lookup now =>
    match s.client.l1Get now k with
    | (some value, client) =>
      { s with client, results := s.results ++ [⟨s.returned, value, true⟩] }
    | (none, client) => { s with client, inFlight := s.inFlight ++ [.get s.returned] }
  | .invalidate w => { s with client := s.client.l1Delete k, inFlight := s.inFlight ++ [.write w] }
  | .serve now call => s.serve k now call
  | .finish now call => s.finish k now call
  | .drop call => s.replace call []

/-- Calls go on while they are in progress. -/
def Enabled (s : Session) : Act → Prop
  | .serve _ call | .finish _ call | .drop call => call ∈ s.inFlight
  | _ => True

instance (s : Session) : ∀ a, Decidable (s.Enabled a)
  | .serve _ call | .finish _ call | .drop call => inferInstanceAs (Decidable (call ∈ s.inFlight))
  | .lookup _ | .invalidate _ => inferInstanceAs (Decidable True)

end Session

end DistCache
