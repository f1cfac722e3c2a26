/-
  A node stays in its own ring.

  No event is about the node itself (`Proof/Peers.lean`).  The ring starts with the node,
  and an event removes only its own node.
-/
import DistCache.Node
import DistCache.Proof.Callbacks
import DistCache.Proof.Peers

namespace DistCache

open Lib

theorem CacheServer.handle_sameWiring (cs : CacheServer) (now : Time) (req : Request) :
    SameWiring cs (cs.handle now req).2 := by
  cases hf : cs.forwardTarget req.serves req.key with
  | none =>
    rw [cs.handle_serve now req hf]
    exact cs.serve_sameWiring now req
  | some p =>
    rw [cs.handle_proxy now req hf]
    exact .refl cs

/-- A handler leaves the ring as it was, its load counters included. -/
theorem CacheServer.handle_ring (cs : CacheServer) (now : Time) (req : Request) :
    (cs.handle now req).2.ring = cs.ring := (cs.handle_sameWiring now req).ring

/-- In a ring with a node, `GetNodes` returns a node. -/
theorem Ring.WF.getNodes_ne_nil {r : Ring} (h : r.WF) {x : NodeID} (hx : x ∈ r.nodes) (key : Key)
    {n : ℕ} (hn : 0 < n) : r.getNodes key n ≠ [] := by
  rw [h.getNodes_eq]
  intro he
  rcases List.take_eq_nil_iff.1 he with h0 | h0
  · omega
  · exact h.order_ne_nil hx key h0

/-! ## Callbacks -/

namespace Node

section
variable (env : Env) (resolve : GoString → Option UDPAddr) (n : Node)

/-- The callback for an event starts with a section. -/
theorem handle_section (event : MembershipEvent) (ord : RangeOrder Key Entry) (now : Time) :
    ∃ w next, Wired.SectionEffect env n.wired ord now event none (w, next) ∧
      n.step env resolve (.handle event) =
        { n with
          server := w.server
          sends := w.sends
          handled := n.handled ++ [event]
          running := n.running ++ next.toList.map fun stage => ⟨event, stage⟩ } :=
  ⟨_, _, Wired.startEvent_effect env n.wired ord now event, rfl⟩

/-- A callback that has been started goes on with a section. -/
theorem resume_section (i : ℕ) (ord : RangeOrder Key Entry) (now : Time) :
    n.step env resolve (.resume i ord now) = n ∨
      ∃ cb w next, n.running[i]? = some cb ∧
        Wired.SectionEffect env n.wired ord now cb.event (some cb.stage) (w, next) ∧
        n.step env resolve (.resume i ord now) =
          { n with
            server := w.server
            sends := w.sends
            running := advance n.running i cb next } := by
  simp only [step]
  split
  · exact Or.inl rfl
  · rename_i cb hcb
    exact Or.inr ⟨cb, _, _, hcb, Wired.resumeEvent_effect env n.wired ord now cb.event cb.stage, rfl⟩

theorem resume_swim (i : ℕ) (ord : RangeOrder Key Entry) (now : Time) :
    (n.step env resolve (.resume i ord now)).swim = n.swim := by
  rcases n.resume_section env resolve i ord now with he | ⟨_, _, _, -, -, he⟩ <;> rw [he]

theorem mem_advance {running : List Callback} {i : ℕ} {cb cb' : Callback}
    {next : Option Wired.Stage} (h : cb' ∈ advance running i cb next) :
    cb' ∈ running ∨ ∃ stage, next = some stage ∧ cb' = { cb with stage } := by
  cases next with
  | none => exact Or.inl (List.mem_of_mem_eraseIdx h)
  | some stage =>
    rcases List.mem_or_eq_of_mem_set h with h | h
    · exact Or.inl h
    · exact Or.inr ⟨stage, rfl, h⟩

end

/-! ## The invariant -/

structure Inv (n : Node) : Prop where
  swim : n.swim.Peers
  ring : n.server.ring.WF
  self : n.swim.m.selfID ∈ n.server.ring.nodes

theorem start_inv (env : Env) (nodeID : NodeID) (addrs : Addrs) (inj : Option FaultInjector)
    (vnodeCount replicaCount : ℤ) (maxLoadFactor : ℚ) :
    Inv (start env nodeID addrs inj vnodeCount replicaCount maxLoadFactor) := by
  refine ⟨Swim.start_peers nodeID addrs inj, ?_, ?_⟩
  · exact Ring.addNode_wf (Ring.new_wf _ _) nodeID
  · show nodeID ∈ ((Ring.new vnodeCount maxLoadFactor).addNode env.sort nodeID).1.nodes
    rw [Ring.addNode_nodes]
    exact Finset.mem_insert_self _ _

/-- A section of a callback adds the node of its event to the ring, removes it at the start,
    or leaves the ring alone. -/
theorem Inv.section {env : Env} {n : Node} (h : Inv n) {ord : RangeOrder Key Entry} {now : Time}
    {event : MembershipEvent} {stage : Option Wired.Stage} {r : Wired × Option Wired.Stage}
    (hr : Wired.SectionEffect env n.wired ord now event stage r)
    (hevent : stage = none → event ∈ n.swim.m.emitted) :
    r.1.server.ring.WF ∧ n.swim.m.selfID ∈ r.1.server.ring.nodes := by
  cases hr with
  | idle | connected | closed | replicated => exact ⟨h.ring, h.self⟩
  | added =>
    refine ⟨Ring.addNode_wf h.ring _, ?_⟩
    show n.swim.m.selfID ∈ (n.server.ring.addNode env.sort event.nodeID).1.nodes
    rw [Ring.addNode_nodes]
    exact Finset.mem_insert_of_mem h.self
  | removed =>
    -- the event was emitted, so it is about another node
    have hne := h.swim.m.event event (hevent rfl)
    refine ⟨Ring.removeNode_wf h.ring _, ?_⟩
    show n.swim.m.selfID ∈ (n.server.ring.removeNode event.nodeID).1.nodes
    rw [Ring.removeNode_nodes]
    exact Finset.mem_erase.2 ⟨fun he => hne he.symm, h.self⟩

/-- An event whose callback may start was emitted. -/
theorem Enabled.emitted {n : Node} {event : MembershipEvent} (h : n.Enabled (.handle event)) :
    event ∈ n.swim.m.emitted :=
  List.count_pos_iff.1 (Nat.zero_lt_of_lt h)

theorem Inv.step {env : Env} {resolve : GoString → Option UDPAddr} (n : Node) (a : Act)
    (h : Inv n) (ha : n.Enabled a) : Inv (n.step env resolve a) := by
  cases a with
  | swim a =>
    refine ⟨h.swim.step resolve a, h.ring, ?_⟩
    show (n.swim.step resolve a).m.selfID ∈ n.server.ring.nodes
    rw [Swim.step_selfID]
    exact h.self
  | handle event =>
    obtain ⟨w, next, heff, he⟩ := n.handle_section env resolve event default 0
    obtain ⟨hwf, hself⟩ := h.section heff fun _ => ha.emitted
    rw [he]
    exact ⟨h.swim, hwf, hself⟩
  | resume i ord now =>
    rcases n.resume_section env resolve i ord now with he | ⟨cb, w, next, -, heff, he⟩
    · rw [he]
      exact h
    · obtain ⟨hwf, hself⟩ := h.section heff (by simp)
      rw [he]
      exact ⟨h.swim, hwf, hself⟩
  | request now req =>
    have hring := n.server.handle_ring now req
    refine ⟨h.swim, ?_, ?_⟩
    · show (n.server.handle now req).2.ring.WF
      rw [hring]
      exact h.ring
    · show n.swim.m.selfID ∈ (n.server.handle now req).2.ring.nodes
      rw [hring]
      exact h.self
  | replicate now req =>
    have hring := (n.server.replicate_sameWiring now req).ring
    refine ⟨h.swim, ?_, ?_⟩
    · show (n.server.replicate now req).ring.WF
      rw [hring]
      exact h.ring
    · show n.swim.m.selfID ∈ (n.server.replicate now req).ring.nodes
      rw [hring]
      exact h.self

theorem run_selfID (env : Env) (resolve : GoString → Option UDPAddr) (n : Node) (acts : List Act) :
    (run (step env resolve) n acts).swim.m.selfID = n.swim.m.selfID := by
  refine run_inv (I := fun n' : Node => n'.swim.m.selfID = n.swim.m.selfID) (fun n' a h => ?_) rfl acts
  cases a with
  | swim a => exact (Swim.step_selfID resolve n'.swim a).trans h
  | resume i ord now => rwa [resume_swim]
  | _ => exact h

/-- **A node never evicts itself.**  In every run of a node as in `main`, whatever messages
    arrive, no event is about the node itself, its ring contains it, and the capacity that
    `getSecondaries` allocates is not negative, whatever the load counters and the state of
    the replication manager are. -/
theorem never_evicts_itself (env : Env) (resolve : GoString → Option UDPAddr) (nodeID : NodeID)
    (addrs : Addrs) (inj : Option FaultInjector) (vnodeCount replicaCount : ℤ) (maxLoadFactor : ℚ)
    (acts : List Act)
    (hacts : Along (step env resolve) Enabled
      (start env nodeID addrs inj vnodeCount replicaCount maxLoadFactor) acts) :
    let n := run (step env resolve)
      (start env nodeID addrs inj vnodeCount replicaCount maxLoadFactor) acts
    (∀ ev ∈ n.swim.m.emitted, ev.nodeID ≠ nodeID) ∧ nodeID ∈ n.server.ring.nodes ∧
      ∀ (rm : ReplicationManager) (ring : Ring) (key : Key), ring.vnodes = n.server.ring.vnodes →
        ring.nodes = n.server.ring.nodes → 0 ≤ rm.secondariesCapacity ring key := by
  intro n
  have hinv : Inv n := hacts.inv Inv.step (start_inv ..)
  have hself : n.swim.m.selfID = nodeID := run_selfID env resolve _ acts
  refine ⟨fun ev hev => hself ▸ hinv.swim.m.event ev hev, hself ▸ hinv.self,
    fun rm ring key hv hn => ?_⟩
  have hne : ring.getNodes key rm.replicaCount ≠ [] := by
    rw [Ring.getNodes_congr hv hn]
    exact hinv.ring.getNodes_ne_nil hinv.self key rm.replicaCount_pos
  have hpos := List.length_pos_iff.2 hne
  unfold ReplicationManager.secondariesCapacity
  omega

/-- Node `a` hears of its own death, and of the birth and death of `b`. -/
noncomputable def hearsOfDeaths : List Act :=
  [.swim (.arrive ⟨[], ⟨.ack, ascii ['b'], [], [], 0, [.report (ascii ['a']) .dead 9,
      .report (ascii ['b']) .alive 0, .report (ascii ['b']) .dead 0]⟩⟩),
    .swim .read] ++ (Swim.applies ++ Swim.applies ++ Swim.applies).map .swim ++
    [.handle ⟨.join, ascii ['b']⟩, .handle ⟨.dead, ascii ['b']⟩, .resume 0 default 0,
      .resume 1 default 0]

theorem never_evicts_itself_reported :
    ascii ['a'] ∈ (run (step Wired.env some) (start Wired.env (ascii ['a']) ⟨[], [], []⟩ none 1 2 0)
      hearsOfDeaths).server.ring.nodes :=
  (never_evicts_itself Wired.env some (ascii ['a']) ⟨[], [], []⟩ none 1 2 0 hearsOfDeaths
    (by decide +kernel)).2.1

end Node

end DistCache
