/-
  The consistent hash ring (`internal/hashing/ring.go`).

  A ring holds `nodeVnodes` virtual nodes for every physical node, sorted by
  hash, the set of physical nodes and a load counter for each of them.
  `AddNode` re-sorts the slice with `sort.Slice`, which is only known to return
  a permutation sorted by the given comparison: it is a parameter (`SortSlice`).
  The callbacks of `AddNode` and `RemoveNode` are run by the caller, when the
  returned flag is set.
-/
import DistCache.Basic
import DistCache.Lib.Run
import DistCache.Lib.Circle

namespace DistCache

open Lib

/-- A virtual node. -/
structure VNode where
  hash : UInt64
  nodeID : NodeID
  index : ℕ
  deriving DecidableEq

/-- `sort.Slice` with the comparison `Hash <` of `AddNode`. -/
structure SortSlice where
  sort : List VNode → List VNode
  perm : ∀ l, (sort l).Perm l
  sorted : ∀ l, (sort l).Pairwise fun v w => v.hash ≤ w.hash

/-- Insertion sort is one. -/
def SortSlice.insertion : SortSlice where
  sort := List.insertionSort fun v w => v.hash ≤ w.hash
  perm := List.perm_insertionSort _
  sorted l := by
    have : Std.Total fun v w : VNode => v.hash ≤ w.hash := ⟨fun v w => UInt64.le_total _ _⟩
    have : IsTrans VNode fun v w => v.hash ≤ w.hash := ⟨fun _ _ _ => UInt64.le_trans⟩
    exact List.pairwise_insertionSort _ _

/-- The ring; `maxLoadFactor` is the ε of bounded loads. -/
structure Ring where
  vnodes : List VNode
  nodeVnodes : ℕ
  nodes : Finset NodeID
  /-- The counters are `atomic.Int64` in the source.  They wrap around after `2 ^ 63` calls only,
      and are integers here. -/
  loads : GoMap NodeID ℤ
  maxLoadFactor : ℚ

/-- The position of a key on the ring. -/
def hashKey (key : Key) : UInt64 := fnv64a key

/-- The position of a virtual node: the hash of `nodeID#index`. -/
def hashVNode (nodeID : NodeID) (index : ℕ) : UInt64 :=
  fnv64a (nodeID ++ ascii ['#'] ++ itoa index)

namespace Ring

/-- `NewRing`. -/
def new (vnodeCount : ℤ) (maxLoadFactor : ℚ) : Ring where
  vnodes := []
  nodeVnodes := if vnodeCount ≤ 0 then 150 else vnodeCount.toNat
  nodes := ∅
  loads := ∅
  maxLoadFactor := if maxLoadFactor < 0 then 1 / 4 else maxLoadFactor

/-- The virtual nodes generated for a physical node. -/
def vnodesOf (count : ℕ) (nodeID : NodeID) : List VNode :=
  (List.range count).map fun i => ⟨hashVNode nodeID i, nodeID, i⟩

/-- `AddNode`: the flag is false if the node already exists. -/
def addNode (S : SortSlice) (r : Ring) (nodeID : NodeID) : Ring × Bool :=
  if nodeID ∈ r.nodes then (r, false)
  else
    ({ r with
        nodes := insert nodeID r.nodes
        loads := r.loads.insert nodeID 0
        vnodes := S.sort (r.vnodes ++ vnodesOf r.nodeVnodes nodeID) }, true)

/-- `RemoveNode`: the flag is false if the node does not exist. -/
def removeNode (r : Ring) (nodeID : NodeID) : Ring × Bool :=
  if nodeID ∈ r.nodes then
    ({ r with
        nodes := r.nodes.erase nodeID
        loads := r.loads.erase nodeID
        vnodes := r.vnodes.filter fun vn => vn.nodeID ≠ nodeID }, true)
  else (r, false)

/-- The capacity that `RemoveNode` allocates for the vnodes that stay. -/
def removeCapacity (r : Ring) : ℤ := (r.vnodes.length : ℤ) - r.nodeVnodes

/-- `Size`. -/
def size (r : Ring) : ℕ := r.nodes.card

/-! ## Lookups -/

/-- `search`: the index of the first vnode with hash at least `hash`, wrapping
    around past the end. -/
def search (r : Ring) (hash : UInt64) : ℕ :=
  let idx := Lib.search r.vnodes.length (atOrAfter VNode.hash hash r.vnodes)
  if r.vnodes.length ≤ idx then 0 else idx

/-- The vnodes in the order of the clockwise walks: `vnodes[(idx+i)%total]` for
    `i = 0, …, total-1`. -/
def walk (r : Ring) (idx : ℕ) : List VNode :=
  (List.range r.vnodes.length).filterMap fun i => r.vnodes[(idx + i) % r.vnodes.length]?

/-- The loop of `GetNodes`. -/
def getNodesLoop (n : ℕ) : List VNode → List NodeID → Finset NodeID → List NodeID
  | [], result, _ => result
  | vnode :: rest, result, seen =>
    if result.length < n then
      if vnode.nodeID ∈ seen then getNodesLoop n rest result seen
      else getNodesLoop n rest (result ++ [vnode.nodeID]) (insert vnode.nodeID seen)
    else result

/-- `GetNodes`: up to `n` distinct nodes responsible for `key`, primary first. -/
def getNodes (r : Ring) (key : Key) (n : ℕ) : List NodeID :=
  if r.vnodes.length = 0 then []
  else
    let n := if r.nodes.card < n then r.nodes.card else n
    getNodesLoop n (r.walk (r.search (hashKey key))) [] ∅

/-! ## Loads -/

/-- Add `d` to the counter of a node, if it has one. -/
def addLoad (d : ℤ) (r : Ring) (nodeID : NodeID) : Ring :=
  match r.loads.lookup nodeID with
  | some load => { r with loads := r.loads.insert nodeID (load + d) }
  | none => r

/-- `IncrementLoad`. -/
def incrementLoad (r : Ring) (nodeID : NodeID) : Ring := addLoad 1 r nodeID

/-- `DecrementLoad`. -/
def decrementLoad (r : Ring) (nodeID : NodeID) : Ring := addLoad (-1) r nodeID

/-- The load counter of a node. -/
def load (r : Ring) (nodeID : NodeID) : ℤ := (r.loads.lookup nodeID).getD 0

/-- The sum of all load counters. -/
def totalLoad (r : Ring) : ℤ := (r.loads.entries.map Sigma.snd).sum

/-- `averageLoad`, in exact arithmetic. -/
def averageLoad (r : Ring) : ℚ := if r.nodes.card = 0 then 0 else r.totalLoad / r.nodes.card

/-- The load from which on `GetNode` passes a node over; the conversion to an
    integer truncates. -/
def maxLoad (r : Ring) : ℤ :=
  let limit := r.averageLoad * (1 + r.maxLoadFactor)
  let maxLoad := limit.num.tdiv limit.den
  if maxLoad < 1 then 1 else maxLoad

/-- The loop of `GetNode`: the first vnode whose node is not overloaded. -/
def getNodeLoop (r : Ring) (maxLoad : ℤ) : List VNode → Option NodeID
  | [] => none
  | vnode :: rest =>
    match r.loads.lookup vnode.nodeID with
    | none => some vnode.nodeID
    | some load => if load < maxLoad then some vnode.nodeID else getNodeLoop r maxLoad rest

/-- `GetNode`: the first node clockwise that is not overloaded, and the original
    target if all of them are. -/
def getNode (r : Ring) (key : Key) : Option NodeID :=
  if r.vnodes.length = 0 then none
  else
    let idx := r.search (hashKey key)
    match r.getNodeLoop r.maxLoad (r.walk idx) with
    | some nodeID => some nodeID
    | none => r.vnodes[idx]?.map VNode.nodeID

/-! ## Histories -/

/-- The operations that change a ring. -/
inductive Op where
  | addNode (nodeID : NodeID)
  | removeNode (nodeID : NodeID)
  | incrementLoad (nodeID : NodeID)
  | decrementLoad (nodeID : NodeID)

/-- Execute an operation. -/
def exec (S : SortSlice) (r : Ring) : Op → Ring
  | .addNode id => (r.addNode S id).1
  | .removeNode id => (r.removeNode id).1
  | .incrementLoad id => r.incrementLoad id
  | .decrementLoad id => r.decrementLoad id

/-- The rings built by some history of operations on a new ring. -/
def Built (S : SortSlice) (vnodeCount : ℤ) (r : Ring) : Prop :=
  ∃ (maxLoadFactor : ℚ) (ops : List Op), r = run (exec S) (new vnodeCount maxLoadFactor) ops

end Ring

/-! ## Assigned requests -/

/-- A ring whose loads count the requests assigned and not completed; `active` lists
    their nodes. -/
structure Balancer where
  ring : Ring
  active : List NodeID

namespace Balancer

/-- Assign a request for a key to a node, or complete a request of a node. -/
inductive Act where
  | assign (key : Key)
  | complete (nodeID : NodeID)

def step (b : Balancer) : Act → Balancer
  | .assign key =>
    match b.ring.getNode key with
    | none => b
    | some nodeID => ⟨b.ring.incrementLoad nodeID, nodeID :: b.active⟩
  | .complete nodeID => ⟨b.ring.decrementLoad nodeID, b.active.erase nodeID⟩

/-- Only an assigned request is completed. -/
def Enabled (b : Balancer) : Act → Prop
  | .assign _ => True
  | .complete nodeID => nodeID ∈ b.active

instance (b : Balancer) : ∀ a, Decidable (b.Enabled a)
  | .assign _ => inferInstanceAs (Decidable True)
  | .complete nodeID => inferInstanceAs (Decidable (nodeID ∈ b.active))

end Balancer

/-! ## Requests in flight -/

/-- A request that called `IncrementLoad` on a node and not yet `DecrementLoad`; it is
    counted if the node has not been added since. -/
structure Ticket where
  nodeID : NodeID
  counted : Bool
  deriving DecidableEq

/-- A ring and the requests in flight on its nodes. -/
structure Traffic where
  ring : Ring
  inFlight : List Ticket

namespace Traffic

/-- The start and the end of a request, and the changes of the membership. -/
inductive Act where
  | start (nodeID : NodeID)
  | finish (req : Ticket)
  | addNode (nodeID : NodeID)
  | removeNode (nodeID : NodeID)

/-- A node that is added gets a new counter: the requests on it do not count any more. -/
def uncount (nodeID : NodeID) (req : Ticket) : Ticket :=
  if req.nodeID = nodeID then { req with counted := false } else req

/-- A call is one step.  `IncrementLoad` and `DecrementLoad` look the counter up under the lock and
    add to it after; a change of the node between the two is not modelled. -/
def step (S : SortSlice) (t : Traffic) : Act → Traffic
  | .start nodeID => ⟨t.ring.incrementLoad nodeID, ⟨nodeID, true⟩ :: t.inFlight⟩
  | .finish req => ⟨t.ring.decrementLoad req.nodeID, t.inFlight.erase req⟩
  | .addNode nodeID =>
    let (ring, added) := t.ring.addNode S nodeID
    ⟨ring, if added then t.inFlight.map (uncount nodeID) else t.inFlight⟩
  | .removeNode nodeID => ⟨(t.ring.removeNode nodeID).1, t.inFlight⟩

/-- Only a request in flight finishes. -/
def Enabled (t : Traffic) : Act → Prop
  | .finish req => req ∈ t.inFlight
  | _ => True

instance (t : Traffic) : ∀ a, Decidable (t.Enabled a)
  | .start _ => inferInstanceAs (Decidable True)
  | .finish req => inferInstanceAs (Decidable (req ∈ t.inFlight))
  | .addNode _ => inferInstanceAs (Decidable True)
  | .removeNode _ => inferInstanceAs (Decidable True)

end Traffic

end DistCache
