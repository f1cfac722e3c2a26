/-
  What a transition of the fleet can do.

  `Effect` lists the ways a transition of the fleet can end; an invariant of the fleet is a case
  analysis on it, and on the sections of the callbacks (`Wired.SectionEffect`).
-/
import DistCache.Fleet
import DistCache.Proof.Node

namespace DistCache

namespace Fleet

section
variable (env : NodeID → Env) (resolve : GoString → Option UDPAddr) (addrs : NodeID → Addrs)

/-- The ways a transition of `f` can end. -/
inductive Effect (f : Fleet) : Act → Fleet → Prop
  | same (a : Act) (h : ∀ x i now, a = .node x (.serve i now) →
      f.node x = none ∨ f.rpcs[i]? = none) : Effect f a f
  | issue (addr : GoString) (req : Request) : Effect f (.issue addr req)
      { f with rpcs := f.rpcs ++ [⟨addr, none, .request req⟩], issued := f.issued ++ [req] }
  | lose (i : ℕ) : Effect f (.lose i) { f with rpcs := f.rpcs.eraseIdx i }
  | boot {x : NodeID} (inj : Option FaultInjector) (vnodeCount replicaCount : ℤ)
      (maxLoadFactor : ℚ) : f.node x = none →
      Effect f (.boot x inj vnodeCount replicaCount maxLoadFactor)
        { f.putNode x (.start (env x) x (addrs x) inj vnodeCount replicaCount maxLoadFactor) with
          booted := insert x f.booted }
  | forward {x : NodeID} {n : Node} {i : ℕ} {now : Time} {rpc : Envelope} {req : Request}
      {primary : NodeID} : f.node x = some n → f.rpcs[i]? = some rpc → rpc.call = .request req →
      n.server.forwardTarget req.serves req.key = some primary →
      Effect f (.node x (.serve i now))
        { f with
          rpcs := f.rpcs.eraseIdx i ++ (n.server.invokePeer primary (.request req)).toList }
  | answer {x : NodeID} {n : Node} {i : ℕ} {now : Time} {rpc : Envelope} {req : Request}
      {resp : Response} {sends : List Send} : f.node x = some n → f.rpcs[i]? = some rpc →
      rpc.call = .request req → (n.server.handle now req).1 = .reply resp sends →
      Effect f (.node x (.serve i now))
        { f.putNode x (n.step (env x) resolve (.request now req)) with
          rpcs := f.rpcs.eraseIdx i, answers := f.answers ++ [(req, resp)] }
  | replicate {x : NodeID} {n : Node} {i : ℕ} {now : Time} {rpc : Envelope}
      {req : ReplicateRequest} : f.node x = some n → f.rpcs[i]? = some rpc →
      rpc.call = .replicate req →
      Effect f (.node x (.serve i now))
        { f.putNode x (n.step (env x) resolve (.replicate now req)) with
          rpcs := f.rpcs.eraseIdx i }
  | send {x : NodeID} {n : Node} (send : Send) : f.node x = some n →
      Effect f (.node x (.send send)) (f.sendReplicate x n send)
  | gossip {x : NodeID} {n : Node} (a : Swim.Act) : f.node x = some n →
      Effect f (.node x (.gossip a)) (f.putNode x (n.step (env x) resolve (.swim a)))
  | handle {x : NodeID} {n : Node} (event : MembershipEvent) : f.node x = some n →
      Effect f (.node x (.handle event)) (f.putNode x (n.step (env x) resolve (.handle event)))
  | resume {x : NodeID} {n : Node} (i : ℕ) (ord : RangeOrder Key Entry) (now : Time) :
      f.node x = some n →
      Effect f (.node x (.resume i ord now))
        (f.putNode x (n.step (env x) resolve (.resume i ord now)))
  | sweep {x : NodeID} {n : Node} {index : ℕ} {passes : List Pass} {store : Store} :
      f.node x = some n → n.server.store.sweepShard index passes = some store →
      Effect f (.node x (.sweep index passes))
        (f.putNode x { n with server := { n.server with store } })
  | decay {x : NodeID} {n : Node} : f.node x = some n →
      Effect f (.node x .decay)
        (f.putNode x { n with
          server := { n.server with
            hotKeyMitigator := n.server.hotKeyMitigator.map fun mt =>
              { mt with detector := mt.detector.decay } } })
  | crash {x : NodeID} {n : Node} : f.node x = some n →
      Effect f (.node x .crash)
        { f with
          node := Function.update f.node x none
          gone := f.gone ++ n.swim.sent.map Datagram.msg }

/-- A node that forwards a request is as before. -/
theorem step_request_proxy {e : Env} {n : Node} {now : Time} {req : Request} {p : NodeID}
    (h : n.server.forwardTarget req.serves req.key = some p) :
    n.step e resolve (.request now req) = n := by
  simp only [Node.step, n.server.handle_proxy now req h, Handled.sends, List.append_nil]

theorem putNode_self {f : Fleet} {x : NodeID} {n : Node} (h : f.node x = some n) :
    f.putNode x n = f := by
  simp [putNode, ← h]

theorem handleCall_effect {f : Fleet} {x : NodeID} {n : Node} {i : ℕ} {now : Time} {rpc : Envelope}
    (hn : f.node x = some n) (hrpc : f.rpcs[i]? = some rpc) :
    Effect env resolve addrs f (.node x (.serve i now))
      ({ f with rpcs := f.rpcs.eraseIdx i }.handleCall env resolve x n now rpc.call) := by
  cases hcall : rpc.call with
  | replicate req => exact .replicate hn hrpc hcall
  | request req =>
    cases hf : n.server.forwardTarget req.serves req.key with
    | some primary =>
      have hself : { f with rpcs := f.rpcs.eraseIdx i }.putNode x n =
          { f with rpcs := f.rpcs.eraseIdx i } := putNode_self hn
      simp only [handleCall, step_request_proxy resolve hf, n.server.handle_proxy now req hf, hself]
      exact .forward hn hrpc hcall hf
    | none =>
      cases hh : (n.server.handle now req).1 with
      | proxy p =>
        rw [n.server.handle_serve now req hf] at hh
        exact absurd hh (n.server.serve_ne_proxy now req p)
      | reply resp sends =>
        simp only [handleCall, hh]
        exact .answer hn hrpc hcall hh

theorem step_effect (f : Fleet) (a : Act) :
    Effect env resolve addrs f a (f.step env resolve addrs a) := by
  cases a with
  | issue addr req => exact .issue addr req
  | lose i => exact .lose i
  | boot x inj vnodeCount replicaCount maxLoadFactor =>
    cases hx : f.node x with
    | some n => simpa only [step, hx] using .same _ (by simp)
    | none => simpa only [step, hx] using .boot inj vnodeCount replicaCount maxLoadFactor hx
  | node x a =>
    cases hn : f.node x with
    | none =>
      simp only [step, hn]
      refine .same _ fun y i now he => Or.inl ?_
      obtain ⟨rfl, -⟩ := Act.node.inj he
      exact hn
    | some n =>
      simp only [step, hn]
      cases a with
      | serve i now =>
        cases hrpc : f.rpcs[i]? with
        | none =>
          simp only [stepNode, hrpc]
          refine .same _ fun y j now' he => Or.inr ?_
          obtain ⟨-, he⟩ := Act.node.inj he
          obtain ⟨rfl, -⟩ := NodeAct.serve.inj he
          exact hrpc
        | some rpc =>
          simp only [stepNode, hrpc]
          exact handleCall_effect env resolve addrs hn hrpc
      | send send => exact .send send hn
      | gossip a => exact .gossip a hn
      | handle event => exact .handle event hn
      | resume i ord now => exact .resume i ord now hn
      | sweep index passes =>
        cases hs : n.server.store.sweepShard index passes with
        | none => simpa only [stepNode, hs] using .same _ (by simp)
        | some store => simpa only [stepNode, hs] using .sweep hn hs
      | decay => exact .decay hn
      | crash => exact .crash hn

end

/-- The nodes after one of them took a step. -/
theorem node_putNode {f : Fleet} {x y : NodeID} {n m : Node}
    (h : (f.putNode x n).node y = some m) : (y = x ∧ m = n) ∨ f.node y = some m := by
  change Function.update f.node x (some n) y = some m at h
  by_cases hy : y = x
  · subst hy
    rw [Function.update_self] at h
    exact Or.inl ⟨rfl, (Option.some.inj h).symm⟩
  · rw [Function.update_of_ne hy] at h
    exact Or.inr h

end Fleet

end DistCache
