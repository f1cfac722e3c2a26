/-
  Several nodes wired as in `main`: membership events change their rings, and the
  replication messages started by the callbacks are delivered in any order.

  The callback of one event, which is not interrupted here, and the delivery of one
  message are transitions.  A goroutine that has not run yet is an element of the
  `sends` of its node.
-/
import DistCache.Cluster
import DistCache.Wiring

namespace DistCache

/-- The states of the nodes. -/
abbrev Net := NodeID → Wired

namespace Net

/-- The servers of the nodes. -/
def servers (net : Net) : Cluster := fun x => (net x).server

/-- Node `x` runs the callback for an event. -/
def handle (env : NodeID → Env) (net : Net) (x : NodeID) (event : MembershipEvent)
    (ord : RangeOrder Key Entry) (now : Time) : Net :=
  Function.update net x ((net x).onEvent (env x) ord now event)

/-- A goroutine `sendReplicate` of node `x` runs. -/
def deliver (net : Net) (x : NodeID) (send : Send) (arrival : Time) : Net := fun y =>
  { net y with
    server := net.servers.sendReplicate x (fun _ => arrival) send y
    sends := if y = x then (net y).sends.erase send else (net y).sends }

/-- A transition of the nodes. -/
inductive Act where
  | handle (x : NodeID) (event : MembershipEvent) (ord : RangeOrder Key Entry) (now : Time)
  | deliver (x : NodeID) (send : Send) (arrival : Time)

def step (env : NodeID → Env) (net : Net) : Act → Net
  | .handle x event ord now => net.handle env x event ord now
  | .deliver x send arrival => net.deliver x send arrival

/-- The nodes of `N` handle events that meet `P`, and run goroutines that were started. -/
def Enabled (N : Finset NodeID) (P : MembershipEvent → Prop) (net : Net) : Act → Prop
  | .handle x event _ _ => x ∈ N ∧ P event
  | .deliver x send _ => x ∈ N ∧ send ∈ (net x).sends

end Net

/-- The event reports that node `x` is gone. -/
def MembershipEvent.Removes (x : NodeID) (event : MembershipEvent) : Prop :=
  event.nodeID = x ∧ (event.type = .dead ∨ event.type = .left)

/-- The event reports that one of the nodes in `N` is there. -/
def MembershipEvent.Adds (N : Finset NodeID) (event : MembershipEvent) : Prop :=
  event.nodeID ∈ N ∧ (event.type = .join ∨ event.type = .alive)

end DistCache
