/-
  The membership state of a node and its transitions
  (`internal/cluster/node.go`, `internal/cluster/membership.go`).

  `applyUpdate` holds the lock for a part of its work only: it is defined as the
  function that it computes when nothing comes between, and by its sections
  (`beginUpdate`, `resumeUpdate`), each of which is one transition.  A method that
  holds the lock to its end is one transition, but `markSuspect` is cut where a
  status that `applyUpdate` writes without the lock can come between its tests and
  its writes (`canSuspect`, `setSuspect`).  A status that `applyUpdate` writes in the
  middle of `markDead`, or among the writes of `markSuspect`, may as well be written
  before or after them; the incarnation that they report is taken to be the one found
  with the status.

  Three things outlive a method call and are part of the state:

  * the timers of `time.AfterFunc`: an `armed` timer may fire; its callback
    `markDead` then waits for the lock (`fired`), and `Stop` no longer affects it;
  * the goroutines started by `emitEvent`, one per event, in order (`emitted`);
  * the channels of pending acks: those closed so far.

  The times `JoinedAt` and `LastSeen`, which no transition reads, are left out.
-/
import DistCache.Basic
import DistCache.Lib.Run

namespace DistCache

/-! ## Nodes -/

/-- The health of a node; a code off the wire may be none of the constants. -/
inductive NodeStatus where
  | alive
  | suspect
  | dead
  | left
  | unknown (code : ℤ)
  deriving DecidableEq

/-- The addresses of a node. -/
structure Addrs where
  grpcAddr : GoString
  gossipAddr : GoString
  httpAddr : GoString
  deriving DecidableEq

structure NodeInfo where
  id : NodeID
  addrs : Addrs
  status : NodeStatus
  incarnation : UInt64
  deriving DecidableEq

/-- `NewNodeInfo`. -/
def NodeInfo.new (id : NodeID) (addrs : Addrs) : NodeInfo := ⟨id, addrs, .alive, 0⟩

/-- The node registry. -/
abbrev NodeRegistry := GoMap NodeID NodeInfo

/-! ## Updates and events -/

structure MembershipUpdate where
  nodeID : NodeID
  addrs : Addrs
  status : NodeStatus
  incarnation : UInt64
  deriving DecidableEq

/-- An update without addresses. -/
def MembershipUpdate.report (nodeID : NodeID) (status : NodeStatus) (incarnation : UInt64) :
    MembershipUpdate := ⟨nodeID, ⟨[], [], []⟩, status, incarnation⟩

inductive MembershipEventType where
  | join
  | alive
  | suspect
  | dead
  | left
  deriving DecidableEq

structure MembershipEvent where
  type : MembershipEventType
  nodeID : NodeID
  deriving DecidableEq

structure QueuedUpdate where
  update : MembershipUpdate
  sentCount : ℕ
  deriving DecidableEq

/-- The fault injector. -/
structure FaultInjector where
  failed : Bool
  partitioned : Finset NodeID

/-- The membership manager of a node. -/
structure Membership where
  selfID : NodeID
  addrs : Addrs
  registry : NodeRegistry
  incarnation : UInt64
  injector : Option FaultInjector
  pendingAcks : GoMap NodeID ℕ
  nextChan : ℕ
  closed : Finset ℕ
  updateQueue : List QueuedUpdate
  suspicionTimers : GoMap NodeID ℕ
  nextTimer : ℕ
  armed : GoMap ℕ NodeID
  fired : List NodeID
  emitted : List MembershipEvent

namespace Membership

/-- `isBlocked`. -/
def isBlocked (m : Membership) (peerID : NodeID) : Bool :=
  match m.injector with
  | none => false
  | some inj => inj.failed || peerID ∈ inj.partitioned

/-- `emitEvent`. -/
def emitEvent (m : Membership) (type : MembershipEventType) (nodeID : NodeID) : Membership :=
  { m with emitted := m.emitted ++ [⟨type, nodeID⟩] }

/-- Write the record of a node. -/
def setInfo (m : Membership) (nodeID : NodeID) (info : NodeInfo) : Membership :=
  { m with registry := m.registry.insert nodeID info }

/-! ## The update queue -/

/-- The loop of `queueUpdate`: replace the queued update about the same node
    unless it is newer, or append. -/
def coalesce (update : MembershipUpdate) : List QueuedUpdate → List QueuedUpdate
  | [] => [⟨update, 0⟩]
  | q :: rest =>
    if q.update.nodeID = update.nodeID then
      if q.update.incarnation ≤ update.incarnation then ⟨update, 0⟩ :: rest else q :: rest
    else q :: coalesce update rest

/-- `queueUpdate`, and `queueUpdateLocked`. -/
def queueUpdate (m : Membership) (update : MembershipUpdate) : Membership :=
  { m with updateQueue := coalesce update m.updateQueue }

/-- `maxPiggybackUpdates`. -/
def maxPiggybackUpdates : ℕ := 10

/-- The loop of `drainUpdates`, with the updates and the active entries so far. -/
def drainLoop : List QueuedUpdate → List MembershipUpdate → List QueuedUpdate →
    List MembershipUpdate × List QueuedUpdate
  | [], updates, active => (updates, active)
  | q :: rest, updates, active =>
    let (updates, q) :=
      if updates.length < maxPiggybackUpdates then
        (updates ++ [q.update], { q with sentCount := q.sentCount + 1 })
      else (updates, q)
    drainLoop rest updates (if q.sentCount < 3 then active ++ [q] else active)

/-- `drainUpdates`. -/
def drainUpdates (m : Membership) : List MembershipUpdate × Membership :=
  let (updates, active) := drainLoop m.updateQueue [] []
  (updates, { m with updateQueue := active })

/-! ## Suspicion timers -/

/-- `Stop` the timer of a node, if there is one: it will not fire any more. -/
def stopTimer (m : Membership) (nodeID : NodeID) : Membership :=
  { m with
    armed :=
      match m.suspicionTimers.lookup nodeID with
      | none => m.armed
      | some t => m.armed.erase t }

/-- `Stop` the timer of a node and forget it. -/
def cancelTimer (m : Membership) (nodeID : NodeID) : Membership :=
  let m := m.stopTimer nodeID
  { m with suspicionTimers := m.suspicionTimers.erase nodeID }

/-- `time.AfterFunc` with the callback `markDead(nodeID)`. -/
def startTimer (m : Membership) (nodeID : NodeID) : Membership :=
  { m with
    suspicionTimers := m.suspicionTimers.insert nodeID m.nextTimer
    armed := m.armed.insert m.nextTimer nodeID
    nextTimer := m.nextTimer + 1 }

/-! ## State transitions -/

/-- `markSuspect`. -/
def markSuspect (m : Membership) (nodeID : NodeID) : Membership :=
  match m.registry.lookup nodeID with
  | none => m
  | some info =>
    if info.status = .dead ∨ info.status = .left then m
    else if info.status = .suspect then m
    else
      ((((m.setInfo nodeID { info with status := .suspect }).queueUpdate
        (.report nodeID .suspect info.incarnation)).emitEvent .suspect nodeID).stopTimer
          nodeID).startTimer nodeID

/-- `markDead`. -/
def markDead (m : Membership) (nodeID : NodeID) : Membership :=
  match m.registry.lookup nodeID with
  | none => m
  | some info =>
    if info.status = .dead then m
    else
      (((m.setInfo nodeID { info with status := .dead }).cancelTimer nodeID).queueUpdate
        (.report nodeID .dead info.incarnation)).emitEvent .dead nodeID

/-- `markSuspectLocked`. -/
def markSuspectLocked (m : Membership) (nodeID : NodeID) (info : NodeInfo) : Membership :=
  (((m.setInfo nodeID { info with status := .suspect }).stopTimer nodeID).startTimer
    nodeID).emitEvent .suspect nodeID

/-- The node's own ALIVE update. -/
def selfAlive (m : Membership) : MembershipUpdate := ⟨m.selfID, m.addrs, .alive, m.incarnation⟩

/-- `refute`. -/
def refute (m : Membership) (update : MembershipUpdate) : Membership :=
  let m :=
    { m with
      incarnation :=
        if m.incarnation ≤ update.incarnation then update.incarnation + 1 else m.incarnation }
  m.queueUpdate m.selfAlive

/-- The part of `applyUpdate` for a registered node and an update that is not stale. -/
def applyStatus (m : Membership) (update : MembershipUpdate) (existing : NodeInfo) : Membership :=
  match update.status with
  | .alive =>
    if existing.status ≠ .alive then
      ((m.setInfo update.nodeID
        { existing with status := .alive, incarnation := update.incarnation }).cancelTimer
          update.nodeID).emitEvent .alive update.nodeID
    else m
  | .suspect =>
    if existing.status = .alive then m.markSuspectLocked update.nodeID existing else m
  | .dead =>
    if existing.status ≠ .dead then
      ((m.setInfo update.nodeID { existing with status := .dead }).cancelTimer
        update.nodeID).emitEvent .dead update.nodeID
    else m
  | .left =>
    (m.setInfo update.nodeID { existing with status := .left }).emitEvent .left update.nodeID
  | .unknown _ => m

/-- `applyUpdate`, if it is not interrupted. -/
def applyUpdate (m : Membership) (update : MembershipUpdate) : Membership :=
  if update.nodeID = m.selfID then
    if update.status = .suspect ∨ update.status = .dead then m.refute update else m
  else
    match m.registry.lookup update.nodeID with
    | none =>
      if update.status = .alive then
        ((m.setInfo update.nodeID
          { NodeInfo.new update.nodeID update.addrs with
            incarnation := update.incarnation }).emitEvent .join update.nodeID).queueUpdate update
      else m
    | some existing =>
      if update.incarnation < existing.incarnation then m else m.applyStatus update existing

/-! ### The sections of `applyUpdate` -/

/-- What is left of a call of `applyUpdate` that has been started. -/
inductive Todo where
  /-- A new node is registered: emit the Join event. -/
  | join
  /-- Queue the update about the new node. -/
  | queue
  /-- ALIVE: the status is written; write the incarnation. -/
  | stamp
  /-- ALIVE: under the lock, cancel the suspicion timer. -/
  | cancel
  /-- SUSPECT: under the lock, run `markSuspectLocked`. -/
  | suspect
  /-- DEAD: under the lock, write the status and cancel the suspicion timer. -/
  | bury
  /-- Emit the event of the new status. -/
  | emit (type : MembershipEventType)
  deriving DecidableEq

/-- `applyUpdate` up to its first access to the shared state.  The test of the status is taken
    together with the write that follows it outside the lock: no other goroutine registers a node,
    makes one Alive or writes an incarnation. -/
def beginUpdate (m : Membership) (update : MembershipUpdate) : Membership × Option Todo :=
  if update.nodeID = m.selfID then
    if update.status = .suspect ∨ update.status = .dead then (m.refute update, none) else (m, none)
  else
    match m.registry.lookup update.nodeID with
    | none =>
      if update.status = .alive then
        (m.setInfo update.nodeID
          { NodeInfo.new update.nodeID update.addrs with incarnation := update.incarnation },
          some .join)
      else (m, none)
    | some existing =>
      if update.incarnation < existing.incarnation then (m, none)
      else
        match update.status with
        | .alive =>
          if existing.status ≠ .alive then
            (m.setInfo update.nodeID { existing with status := .alive }, some .stamp)
          else (m, none)
        | .suspect => if existing.status = .alive then (m, some .suspect) else (m, none)
        | .dead => if existing.status ≠ .dead then (m, some .bury) else (m, none)
        | .left =>
          (m.setInfo update.nodeID { existing with status := .left }, some (.emit .left))
        | .unknown _ => (m, none)

/-- The sections that are run under the lock. -/
def Todo.isLocked : Todo → Bool
  | .cancel | .suspect | .bury => true
  | .join | .queue | .stamp | .emit _ => false

/-- The next section of `applyUpdate`, on the record as it is now. -/
def resumeUpdate (m : Membership) (update : MembershipUpdate) (todo : Todo) :
    Membership × Option Todo :=
  match m.registry.lookup update.nodeID with
  | none => (m, none)
  | some existing =>
    match todo with
    | .join => (m.emitEvent .join update.nodeID, some .queue)
    | .queue => (m.queueUpdate update, none)
    | .stamp =>
      (m.setInfo update.nodeID { existing with incarnation := update.incarnation }, some .cancel)
    | .cancel => (m.cancelTimer update.nodeID, some (.emit .alive))
    | .suspect => (m.markSuspectLocked update.nodeID existing, none)
    | .bury =>
      ((m.setInfo update.nodeID { existing with status := .dead }).cancelTimer update.nodeID,
        some (.emit .dead))
    | .emit type => (m.emitEvent type update.nodeID, none)

/-! ### The sections of `markSuspect` -/

/-- The tests of `markSuspect`. -/
def canSuspect (m : Membership) (nodeID : NodeID) : Bool :=
  match m.registry.lookup nodeID with
  | none => false
  | some info => info.status ≠ .dead ∧ info.status ≠ .left ∧ info.status ≠ .suspect

/-- `markSuspect` after its tests. -/
def setSuspect (m : Membership) (nodeID : NodeID) : Membership :=
  match m.registry.lookup nodeID with
  | none => m
  | some info =>
    ((((m.setInfo nodeID { info with status := .suspect }).queueUpdate
      (.report nodeID .suspect info.incarnation)).emitEvent .suspect nodeID).stopTimer
        nodeID).startTimer nodeID

/-! ### Calls -/

/-- A call of one of the methods that change the record of a peer. -/
inductive Method where
  | applyUpdate (update : MembershipUpdate)
  | markSuspect (nodeID : NodeID)
  | markDead (nodeID : NodeID)

def call (m : Membership) : Method → Membership
  | .applyUpdate update => m.applyUpdate update
  | .markSuspect nodeID => m.markSuspect nodeID
  | .markDead nodeID => m.markDead nodeID

/-! ## Life cycle -/

/-- `NewMembership` and `Start`: the node registers itself and queues its ALIVE update. -/
def start (selfID : NodeID) (addrs : Addrs) (injector : Option FaultInjector) : Membership :=
  let m : Membership :=
    { selfID, addrs, injector
      registry := ∅, incarnation := 0
      pendingAcks := ∅, nextChan := 0, closed := ∅
      updateQueue := []
      suspicionTimers := ∅, nextTimer := 0, armed := ∅, fired := []
      emitted := [] }
  (m.setInfo selfID (.new selfID addrs)).queueUpdate m.selfAlive

/-- The broadcast of `Stop`: the node's own record and its last update are LEFT. -/
def leave (m : Membership) : Membership :=
  let m :=
    { m with
      registry :=
        match m.registry.lookup m.selfID with
        | none => m.registry
        | some info => m.registry.insert m.selfID { info with status := .left } }
  m.queueUpdate (.report m.selfID .left m.incarnation)

/-! ## Timers and callbacks -/

/-- An armed timer fires: its callback is started, and waits for the lock. -/
def fire (m : Membership) (t : ℕ) : Membership :=
  match m.armed.lookup t with
  | none => m
  | some nodeID => { m with armed := m.armed.erase t, fired := m.fired ++ [nodeID] }

/-- A waiting callback gets the lock and runs `markDead`. -/
def callback (m : Membership) (nodeID : NodeID) : Membership :=
  if nodeID ∈ m.fired then { m with fired := m.fired.erase nodeID }.markDead nodeID else m

end Membership

end DistCache
