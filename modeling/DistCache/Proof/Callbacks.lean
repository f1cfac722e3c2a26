/-
  The callbacks of a node, section by section.

  * `SectionEffect`: the ways a section of a callback can end;
  * `resume_onEvent`: the sections of a callback that nothing interrupts make up
    `onEvent`.
-/
import DistCache.Wiring
import DistCache.Proof.Server

namespace DistCache.Wired

/-! ## The replication manager -/

section
variable {w : Wired} {f g : ReplicationManager → ReplicationManager × List Send}

@[simp] theorem withManager_ring : (w.withManager f).server.ring = w.server.ring := by
  unfold withManager; split <;> rfl

@[simp] theorem withManager_store : (w.withManager f).server.store = w.server.store := by
  unfold withManager; split <;> rfl

theorem withManager_of_some {rm : ReplicationManager} (hrm : w.server.replicationMgr = some rm) :
    w.withManager f =
      { w with
        server := { w.server with replicationMgr := some (f rm).1 }
        sends := w.sends ++ (f rm).2 } := by
  unfold withManager
  rw [hrm]

theorem withManager_of_none (hrm : w.server.replicationMgr = none) : w.withManager f = w := by
  unfold withManager
  rw [hrm]

end

theorem onNodeAdded_cases (env : Env) (w : Wired) (x : NodeID) :
    w.onNodeAdded env x = w ∨ ∃ info, w.m.registry.lookup x = some info ∧ x ≠ w.server.nodeID ∧
      w.onNodeAdded env x = w.connect env x info.addrs.grpcAddr := by
  unfold onNodeAdded
  split
  · exact Or.inl rfl
  · rename_i info hl
    split_ifs with hx
    · exact Or.inr ⟨info, hl, hx, rfl⟩
    · exact Or.inl rfl

/-- `HandleNodeFailure` closes the connection, and then re-replicates. -/
theorem onNodeRemoved_eq (w : Wired) (ord : RangeOrder Key Entry) (now : Time) (x : NodeID) :
    w.onNodeRemoved ord now x =
      let w := w.withManager fun rm => ({ rm with peerConns := rm.peerConns.erase x }, [])
      w.withManager fun rm => rm.reReplicateForDeadNode w.server.ring ord w.server.store now := by
  unfold onNodeRemoved
  dsimp only
  rw [withManager_ring, withManager_store]
  cases hrm : w.server.replicationMgr with
  | none => rw [withManager_of_none hrm, withManager_of_none hrm, withManager_of_none hrm]
  | some rm =>
    rw [withManager_of_some hrm, withManager_of_some hrm, withManager_of_some rfl, List.append_nil]
    rfl

/-! ## Sections -/

/-- The address that a callback connects to. -/
def Stage.addr : Stage → Option GoString
  | .added addr | .connect addr => some addr
  | .removed | .closed => none

/-- The ways a section of the callback for an event can end, at the start of the callback or at
    one of its stages: the node as it is then, and the next stage. -/
inductive SectionEffect (env : Env) (w : Wired) (ord : RangeOrder Key Entry) (now : Time)
    (event : MembershipEvent) : Option Stage → Wired × Option Stage → Prop
  | idle {stage next : Option Stage} : next.bind Stage.addr = none ∨
      next.bind Stage.addr = stage.bind Stage.addr →
      SectionEffect env w ord now event stage (w, next)
  /-- The ring gets the node. -/
  | added {info : NodeInfo} {next : Stage} : w.m.registry.lookup event.nodeID = some info →
      next.addr = some info.addrs.grpcAddr →
      SectionEffect env w ord now event none ({ w with
        server := { w.server with ring := (w.server.ring.addNode env.sort event.nodeID).1 } },
        some next)
  /-- The ring loses the node. -/
  | removed {next : Option Stage} : next.bind Stage.addr = none →
      SectionEffect env w ord now event none ({ w with
        server := { w.server with ring := (w.server.ring.removeNode event.nodeID).1 } }, next)
  /-- The manager gets a connection, to the address in the record or to the one kept. -/
  | connected {stage next : Option Stage} {rm : ReplicationManager} {addr : GoString} :
      w.server.replicationMgr = some rm → event.nodeID ≠ w.server.nodeID →
      (∃ info, w.m.registry.lookup event.nodeID = some info ∧ info.addrs.grpcAddr = addr) ∨
        stage.bind Stage.addr = some addr →
      next.bind Stage.addr = none ∨ next.bind Stage.addr = stage.bind Stage.addr →
      SectionEffect env w ord now event stage ({ w with
        server := { w.server with
          replicationMgr := some (rm.connectToPeer env.dial event.nodeID addr) } }, next)
  /-- The manager closes its connection. -/
  | closed {rm : ReplicationManager} : w.server.replicationMgr = some rm →
      SectionEffect env w ord now event (some .removed) ({ w with
        server := { w.server with
          replicationMgr := some { rm with peerConns := rm.peerConns.erase event.nodeID } } },
        some .closed)
  /-- The manager replicates anew. -/
  | replicated {rm : ReplicationManager} : w.server.replicationMgr = some rm →
      SectionEffect env w ord now event (some .closed) ({ w with
        server := { w.server with
          replicationMgr :=
            some (rm.reReplicateForDeadNode w.server.ring ord w.server.store now).1 }
        sends := w.sends ++ (rm.reReplicateForDeadNode w.server.ring ord w.server.store now).2 },
        none)

section
variable (env : Env) (w : Wired) (ord : RangeOrder Key Entry) (now : Time) (event : MembershipEvent)

theorem startEvent_effect : SectionEffect env w ord now event none (w.startEvent env event) := by
  have hadd : ∀ {info : NodeInfo}, w.m.registry.lookup event.nodeID = some info →
      SectionEffect env w ord now event none
        ({ w with server := { w.server with ring := (w.server.ring.addNode env.sort event.nodeID).1 } },
          some (if (w.server.ring.addNode env.sort event.nodeID).2 then .added info.addrs.grpcAddr
            else .connect info.addrs.grpcAddr)) := by
    intro info hl
    refine .added hl ?_
    split_ifs <;> rfl
  have hremove : SectionEffect env w ord now event none
      ({ w with server := { w.server with ring := (w.server.ring.removeNode event.nodeID).1 } },
        if (w.server.ring.removeNode event.nodeID).2 then some .removed else none) := by
    refine .removed ?_
    split_ifs <;> rfl
  unfold startEvent
  cases event.type with
  | join | alive =>
    dsimp only
    split
    · exact .idle (Or.inl rfl)
    · rename_i info hl
      exact hadd hl
  | dead | left => exact hremove
  | suspect => exact .idle (Or.inl rfl)

/-- `ConnectToPeer`, at a stage with an address. -/
theorem connect_effect {stage next : Option Stage} {addr : GoString}
    (hid : event.nodeID ≠ w.server.nodeID)
    (haddr : (∃ info, w.m.registry.lookup event.nodeID = some info ∧ info.addrs.grpcAddr = addr) ∨
      stage.bind Stage.addr = some addr)
    (hnext : next.bind Stage.addr = none ∨ next.bind Stage.addr = stage.bind Stage.addr) :
    SectionEffect env w ord now event stage (w.connect env event.nodeID addr, next) := by
  unfold connect
  cases hrm : w.server.replicationMgr with
  | none =>
    rw [withManager_of_none hrm]
    exact .idle hnext
  | some rm =>
    rw [withManager_of_some hrm, List.append_nil]
    exact .connected hrm hid haddr hnext

theorem resumeEvent_effect (stage : Stage) :
    SectionEffect env w ord now event (some stage) (w.resumeEvent env ord now event stage) := by
  cases stage with
  | added addr =>
    unfold resumeEvent
    rcases onNodeAdded_cases env w event.nodeID with he | ⟨info, hl, hid, he⟩
    · rw [he]
      exact .idle (Or.inr rfl)
    · rw [he]
      exact connect_effect env w ord now event hid (Or.inl ⟨info, hl, rfl⟩) (Or.inr rfl)
  | connect addr =>
    unfold resumeEvent
    dsimp only
    split_ifs with hid
    · exact connect_effect env w ord now event hid (Or.inr rfl) (Or.inl rfl)
    · exact .idle (Or.inl rfl)
  | removed =>
    show SectionEffect env w ord now event _ (w.withManager _, some .closed)
    cases hrm : w.server.replicationMgr with
    | none =>
      rw [withManager_of_none hrm]
      exact .idle (Or.inl rfl)
    | some rm =>
      rw [withManager_of_some hrm, List.append_nil]
      exact .closed hrm
  | closed =>
    show SectionEffect env w ord now event _ (w.withManager _, none)
    cases hrm : w.server.replicationMgr with
    | none =>
      rw [withManager_of_none hrm]
      exact .idle (Or.inl rfl)
    | some rm =>
      rw [withManager_of_some hrm]
      exact .replicated hrm

/-- The callback goes on with its next section, if there is one. -/
def nextSection : Wired × Option Stage → Wired × Option Stage
  | (w, none) => (w, none)
  | (w, some stage) => w.resumeEvent env ord now event stage

/-- **The sections of a callback that is not interrupted make up `onEvent`.** -/
theorem resume_onEvent :
    (nextSection env ord now event)^[2] (w.startEvent env event) =
      (w.onEvent env ord now event, none) := by
  have hadd : ∀ info : NodeInfo, (nextSection env ord now event)^[2]
      ({ w with server := { w.server with ring := (w.server.ring.addNode env.sort event.nodeID).1 } },
        some (if (w.server.ring.addNode env.sort event.nodeID).2 then .added info.addrs.grpcAddr
          else .connect info.addrs.grpcAddr)) =
      (if event.nodeID ≠ (w.addNode env event.nodeID).server.nodeID then
        (w.addNode env event.nodeID).connect env event.nodeID info.addrs.grpcAddr
        else w.addNode env event.nodeID, none) := by
    intro info
    unfold addNode
    generalize w.server.ring.addNode env.sort event.nodeID = r
    obtain ⟨ring, added⟩ := r
    cases added <;> rfl
  have hremove : (nextSection env ord now event)^[2]
      ({ w with server := { w.server with ring := (w.server.ring.removeNode event.nodeID).1 } },
        if (w.server.ring.removeNode event.nodeID).2 then some .removed else none) =
      (w.removeNode ord now event.nodeID, none) := by
    unfold removeNode
    generalize w.server.ring.removeNode event.nodeID = r
    obtain ⟨ring, removed⟩ := r
    cases removed with
    | false => rfl
    | true =>
      -- closing the connection and replicating anew are `HandleNodeFailure`
      refine Prod.ext (Eq.trans ?_ (onNodeRemoved_eq _ ord now event.nodeID).symm) rfl
      rfl
  unfold startEvent onEvent
  cases event.type with
  | join | alive =>
    dsimp only
    split
    · rfl
    · rename_i info hl
      exact hadd info
  | dead | left => exact hremove
  | suspect => rfl

end

/-- An environment where dialing succeeds. -/
def env : Env := ⟨.insertion, fun _ => true⟩

end DistCache.Wired
