/-
  Several clients of several nodes (`client/client.go`).

  A `Get` looks into the cache of its client, asks a node if it finds nothing there, and may store
  the answer before it returns.  The node that is asked may forward the request, which leaves the node
  as it is; the one that executes it in the end may be any.  The steps of all clients interleave with
  each other, and with whatever else happens to the nodes.  A `Set` or `Delete` of a client drops the
  key from its own cache only; what it does to a node is an event like those of the other clients.

  All machines read one clock.
-/
import DistCache.Client
import DistCache.Upkeep

namespace DistCache

/-- `Close`: the connections are closed and the cache is cleared; the ring stays. -/
def Client.close (c : Client) : Client :=
  { c with conns := ∅, l1Cache := c.l1Cache.map L1Cache.clear }

/-- A `Get` in progress. -/
inductive PendingGet where
  | asked (client : ℕ) (key : Key)
  | answered (client : ℕ) (key : Key) (served : Time) (resp : GetResponse)
  deriving DecidableEq

/-- A `Get` that has found its key, and when it returned. -/
structure ClientRead where
  client : ℕ
  key : Key
  value : Value
  time : Time
  deriving DecidableEq

structure Clients where
  client : ℕ → Client
  server : NodeID → CacheServer
  pending : List PendingGet
  reads : List ClientRead
  clock : Time

namespace Clients

def start (client : ℕ → Client) (server : NodeID → CacheServer) (clock : Time) : Clients :=
  ⟨client, server, [], [], clock⟩

/-- Client `i` becomes `c`. -/
def put (s : Clients) (i : ℕ) (c : Client) : Clients :=
  { s with client := Function.update s.client i c }

/-- `Get` up to its RPC. -/
def lookup (s : Clients) (i : ℕ) (key : Key) (now : Time) : Clients :=
  match (s.client i).l1Get now key with
  | (some value, c) => { s.put i c with reads := s.reads ++ [⟨i, key, value, now⟩] }
  | (none, c) =>
    match c.getConn key with
    | .error _ => s.put i c
    | .ok _ => { s.put i c with pending := s.pending ++ [.asked i key] }

/-- Node `x` executes a `Get`, unless it forwards the request. -/
def serve (s : Clients) (i : ℕ) (key : Key) (x : NodeID) (now : Time) : Clients :=
  match (s.server x).handle now (.get ⟨key⟩) with
  | (.reply (.get resp) _, server) =>
    { s with
      server := Function.update s.server x server
      pending := s.pending.erase (.asked i key) ++ [.answered i key now resp] }
  | _ => s

/-- `Get` from its answer on. -/
def finish (s : Clients) (i : ℕ) (key : Key) (served : Time) (resp : GetResponse) (now : Time) :
    Clients :=
  { s.put i ((s.client i).l1Store now key resp) with
    pending := s.pending.erase (.answered i key served resp)
    reads := if resp.found then s.reads ++ [⟨i, key, resp.value, now⟩] else s.reads }

inductive Act where
  | lookup (i : ℕ) (key : Key) (now : Time)
  | serve (i : ℕ) (key : Key) (x : NodeID) (now : Time)
  | finish (i : ℕ) (key : Key) (served : Time) (resp : GetResponse) (now : Time)
  /-- The RPC of a `Get` fails. -/
  | fail (get : PendingGet)
  /-- `Set` or `Delete` drops the key from the cache. -/
  | invalidate (i : ℕ) (key : Key)
  | close (i : ℕ)
  /-- Anything else that happens to a node. -/
  | event (x : NodeID) (e : CacheServer.Event)

/-- The clock reading of a step, if it has one. -/
def Act.now : Act → Option Time
  | .lookup _ _ now | .serve _ _ _ now | .finish _ _ _ _ now => some now
  | .fail _ | .invalidate _ _ | .close _ | .event _ _ => none

def step (s : Clients) (a : Act) : Clients :=
  let s := { s with clock := a.now.getD s.clock }
  match a with
  | .lookup i key now => s.lookup i key now
  | .serve i key x now => s.serve i key x now
  | .finish i key served resp now => s.finish i key served resp now
  | .fail get => { s with pending := s.pending.erase get }
  | .invalidate i key => s.put i ((s.client i).l1Delete key)
  | .close i => s.put i (s.client i).close
  | .event x e => { s with server := Function.update s.server x ((s.server x).event e) }

/-- The clock does not go back, and a `Get` goes on while it is in progress. -/
def Enabled (s : Clients) (a : Act) : Prop :=
  s.clock ≤ a.now.getD s.clock ∧
    match a with
    | .serve i key _ _ => .asked i key ∈ s.pending
    | .finish i key served resp _ => .answered i key served resp ∈ s.pending
    | .fail get => get ∈ s.pending
    | _ => True

instance (s : Clients) : ∀ a, Decidable (s.Enabled a)
  | .serve i key _ _ =>
    @instDecidableAnd _ _ _ (inferInstanceAs (Decidable (.asked i key ∈ s.pending)))
  | .finish i key served resp _ =>
    @instDecidableAnd _ _ _ (inferInstanceAs (Decidable (.answered i key served resp ∈ s.pending)))
  | .fail get => @instDecidableAnd _ _ _ (inferInstanceAs (Decidable (get ∈ s.pending)))
  | .lookup .. | .invalidate .. | .close _ | .event .. =>
    @instDecidableAnd _ _ _ (inferInstanceAs (Decidable True))

end Clients

end DistCache
