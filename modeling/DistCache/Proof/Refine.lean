/-
  A fixed cluster refines one map.

  With identical rings and all connections up, a request is served by the node
  it enters at or, after one hop, by the primary of its key (`Fixed.chain`).
  The invariant `Fixed.Holds m` says that every replica of a key holds the entry
  that the abstract map `m` has for it; shard copies are no client keys.
-/
import DistCache.Proof.Converge
import DistCache.Proof.Ownership
import DistCache.Proof.Proxy

namespace DistCache

open Lib CacheServer DistCache.Ring

/-! ## The abstract map -/

/-- What a client sees of a response: the found flag and value of `Get`, and the
    flags of the other requests. -/
inductive Answer where
  | get (found : Bool) (value : Value)
  | set (success : Bool)
  | delete (existed : Bool)
  | expire (found : Bool)
  deriving DecidableEq

def Response.answer : Response → Answer
  | .get resp => .get resp.found resp.value
  | .set resp => .set resp.success
  | .delete resp => .delete resp.existed
  | .expire resp => .expire resp.found

/-- A single map from keys to values. -/
abbrev GlobalMap := Key → Option Value

namespace GlobalMap

/-- A request on the map, which knows no expiry. -/
def exec (m : GlobalMap) : Request → Answer × GlobalMap
  | .get req => (.get (m req.key).isSome ((m req.key).getD []), m)
  | .set req => (.set true, Function.update m req.key (some req.value))
  | .delete req => (.delete (m req.key).isSome, Function.update m req.key none)
  | .expire req => (.expire (m req.key).isSome, m)

/-- The answers to the requests of a run. -/
def answers (m : GlobalMap) : List Cluster.Event → List Answer
  | [] => []
  | .request call :: rest => (m.exec call.req).1 :: (m.exec call.req).2.answers rest
  | .decay _ :: rest => m.answers rest

end GlobalMap

/-- The key is one of the shard copies that the mitigator makes. -/
def IsShardKey (k : Key) : Prop := ∃ key i, k = shardKeyName key i

theorem spares_of_not_isShardKey {k : Key} (h : ¬ IsShardKey k) (key : Key) : Spares key k :=
  fun i he => h ⟨key, i, he⟩

/-- `Get`, `Set` without expiry and `Delete` of a client key. -/
def Plain (req : Request) : Prop :=
  ¬ IsShardKey req.key ∧
    match req with
    | .set req => req.ttlMs = 0
    | .expire _ => False
    | _ => True

/-! ## Fixed clusters -/

/-- The nodes of `N` with identical rings over `N`, replica count `R`, and connections
    to each other. -/
structure Fixed (N : Finset NodeID) (vnodeCount : ℤ) (R : ℕ) (c : Cluster) : Prop where
  nodeID : ∀ x ∈ N, (c x).nodeID = x
  built : ∀ x ∈ N, ∃ sort, Built sort vnodeCount (c x).ring
  nodes : ∀ x ∈ N, (c x).ring.nodes = N
  manager : ∀ x ∈ N, ∃ rm, (c x).replicationMgr = some rm ∧ rm.selfID = x ∧
    rm.replicaCount = R ∧ ∀ y ∈ N, y ≠ x → y ∈ rm.peerConns
  noCollision : NoCollision (vnodesPerNode vnodeCount) N

namespace Fixed

variable {N : Finset NodeID} {vnodeCount : ℤ} {R : ℕ} {c c' : Cluster} {x y : NodeID} {k : Key}

theorem of_sameWiring (h : Fixed N vnodeCount R c) (hw : ∀ x ∈ N, SameWiring (c x) (c' x)) :
    Fixed N vnodeCount R c' where
  nodeID x hx := (hw x hx).nodeID.trans (h.nodeID x hx)
  built x hx := by rw [(hw x hx).ring]; exact h.built x hx
  nodes x hx := by rw [(hw x hx).ring]; exact h.nodes x hx
  manager x hx := by
    obtain ⟨rm, hrm, h1, h2, h3⟩ := h.manager x hx
    have hm := (hw x hx).replicationMgr
    rw [hrm, Option.map_some] at hm
    obtain ⟨rm', hrm', hm⟩ := Option.map_eq_some_iff.1 hm
    simp only [wiring, Prod.mk.injEq] at hm
    obtain ⟨e1, e2, e3⟩ := hm
    exact ⟨rm', hrm', e1.trans h1, e2.trans h2, by rw [e3]; exact h3⟩
  noCollision := h.noCollision

section
variable (h : Fixed N vnodeCount R c)
include h

theorem wf (hx : x ∈ N) : (c x).ring.WF := by
  obtain ⟨sort, hb⟩ := h.built x hx
  exact built_wf hb

/-- All nodes see the members in the same order. -/
theorem order_eq (hx : x ∈ N) (hy : y ∈ N) (k : Key) :
    (c x).ring.order k = (c y).ring.order k :=
  order_eq_of_nodes (h.built x hx) (h.built y hy) (h.nodes x hx) (h.nodes y hy) h.noCollision k

theorem getNodes_eq (hx : x ∈ N) (hy : y ∈ N) (k : Key) (n : ℕ) :
    (c x).ring.getNodes k n = (c y).ring.getNodes k n := by
  rw [(h.wf hx).getNodes_eq, (h.wf hy).getNodes_eq, h.order_eq hx hy]

/-- Every key has a primary among the members. -/
theorem exists_primary (hx : x ∈ N) (k : Key) :
    ∃ p ∈ N, (c x).ring.getNodes k 1 = [p] := by
  have hne := (h.wf hx).order_ne_nil ((h.nodes x hx).symm ▸ hx) k
  obtain ⟨p, ps, hp⟩ := List.exists_cons_of_ne_nil hne
  have hmem : p ∈ (c x).ring.order k := by rw [hp]; exact List.mem_cons_self
  have hpN : p ∈ N := by rw [← h.nodes x hx]; exact (h.wf hx).mem_order.1 hmem
  exact ⟨p, hpN, by rw [(h.wf hx).getNodes_eq, hp]; rfl⟩

/-- The primary of a key may serve every request for it. -/
theorem serves_of_primary (hx : x ∈ N) {req : Request}
    (hp : (c x).ring.getNodes req.key 1 = [x]) {rm : ReplicationManager}
    (hrm : (c x).replicationMgr = some rm) : req.serves rm (c x).ring req.key = true := by
  obtain ⟨rm', hrm', hself, -, -⟩ := h.manager x hx
  obtain rfl : rm = rm' := Option.some.inj (hrm.symm.trans hrm')
  have hprim : rm.isPrimary (c x).ring req.key = true := by
    simp [ReplicationManager.isPrimary, hp, hself]
  have hrep : rm.isReplica (c x).ring req.key = true := by
    have hR := rm.replicaCount_pos
    rw [(h.wf hx).getNodes_eq] at hp
    obtain ⟨n, hn⟩ : ∃ n, rm.replicaCount = n + 1 := ⟨rm.replicaCount - 1, by omega⟩
    simp only [ReplicationManager.isReplica, (h.wf hx).getNodes_eq, hself, hn, decide_eq_true_eq]
    cases ho : (c x).ring.order req.key with
    | nil => simp [ho] at hp
    | cons p ps => simp [ho] at hp; simp [hp]
  cases req <;> simp only [Request.serves] <;> assumption

/-- A node that does not forward a request may serve it. -/
theorem serves_of_forwardTarget (hx : x ∈ N) {req : Request}
    (hf : (c x).forwardTarget req.serves req.key = none) :
    ∃ rm, (c x).replicationMgr = some rm ∧ req.serves rm (c x).ring req.key = true := by
  obtain ⟨rm, hrm, -, -, hconn⟩ := h.manager x hx
  obtain ⟨p, hpN, hp⟩ := h.exists_primary hx req.key
  refine ⟨rm, hrm, ?_⟩
  by_cases hpx : p = x
  · subst hpx
    exact h.serves_of_primary hx hp hrm
  · by_contra hs
    have hcond : p ≠ (c x).nodeID ∧ p ∈ rm.peerConns := by
      rw [h.nodeID x hx]
      exact ⟨hpx, hconn p hpN hpx⟩
    simp [forwardTarget, hrm, hs, ReplicationManager.getPrimary, hp, hcond] at hf

/-- A forwarded request is served by the node it is forwarded to. -/
theorem forwardTarget_primary (hx : x ∈ N) {req : Request} {p : NodeID}
    (hf : (c x).forwardTarget req.serves req.key = some p) :
    p ∈ N ∧ (c p).forwardTarget req.serves req.key = none := by
  obtain ⟨-, -, -, hp, -, -⟩ := (c x).forwardTarget_eq_some hf
  obtain ⟨q, hqN, hq⟩ := h.exists_primary hx req.key
  obtain rfl : q = p := by simpa [hq] using hp
  refine ⟨hqN, ?_⟩
  obtain ⟨rm, hrm, -⟩ := h.manager q hqN
  rw [h.getNodes_eq hx hqN] at hq
  simp [forwardTarget, hrm, h.serves_of_primary hqN hq hrm]

/-- **A request takes at most one hop**, to a node that may serve it. -/
theorem chain (hx : x ∈ N) (req : Request) (now : ℕ → Time) {fuel : ℕ} (hfuel : 2 ≤ fuel) :
    ∃ y ∈ N, (c y).forwardTarget req.serves req.key = none ∧
      ∃ before, hops (fun _ => c) now (fun _ => true) req fuel 0 x =
        before ++ [(y, ((c y).serve (now before.length) req).1)] := by
  obtain ⟨fuel, rfl⟩ : ∃ n, fuel = n + 2 := ⟨fuel - 2, by omega⟩
  cases hf : (c x).forwardTarget req.serves req.key with
  | none => exact ⟨x, hx, hf, [], hops_serve hf now _ (fuel + 1)⟩
  | some p =>
    obtain ⟨hpN, hpf⟩ := h.forwardTarget_primary hx hf
    have hlast : hops (fun _ => c) now (fun _ => true) req (fuel + 1) 1 p =
        [(p, ((c p).serve (now 1) req).1)] := hops_serve hpf now _ fuel
    refine ⟨p, hpN, hpf, [(x, .proxy p)], (hops_forward hf now _ (fuel + 1)).trans ?_⟩
    rw [if_pos rfl, hlast]
    rfl

/-- A node that may serve a request is a replica of its key. -/
theorem mem_replicas (hy : y ∈ N) {req : Request} {rm : ReplicationManager}
    (hrm : (c y).replicationMgr = some rm) (hs : req.serves rm (c y).ring req.key = true) :
    y ∈ (c y).ring.getNodes req.key R := by
  obtain ⟨rm', hrm', hself, hR, -⟩ := h.manager y hy
  obtain rfl : rm = rm' := Option.some.inj (hrm.symm.trans hrm')
  have hprim : rm.isPrimary (c y).ring req.key = true → y ∈ (c y).ring.getNodes req.key R := by
    intro hp
    have hpos := rm.replicaCount_pos
    simp only [ReplicationManager.isPrimary, (h.wf hy).getNodes_eq, hself, decide_eq_true_eq,
      List.head?_take, if_neg one_ne_zero] at hp
    rw [(h.wf hy).getNodes_eq, ← hR]
    refine List.mem_of_mem_head? ?_
    rw [List.head?_take, if_neg (by omega)]
    exact hp
  cases req with
  | get req =>
    simpa [Request.serves, ReplicationManager.isReplica, hself, hR] using hs
  | set req => exact hprim hs
  | delete req => exact hprim hs
  | expire req => exact hprim hs

theorem mem_getSecondaries (hy : y ∈ N) {rm : ReplicationManager}
    (hrm : (c y).replicationMgr = some rm) {z : NodeID} :
    z ∈ rm.getSecondaries (c y).ring k ↔ z ∈ (c y).ring.getNodes k R ∧ z ≠ y := by
  obtain ⟨rm', hrm', hself, hR, -⟩ := h.manager y hy
  obtain rfl : rm = rm' := Option.some.inj (hrm.symm.trans hrm')
  simp [ReplicationManager.getSecondaries, hself, hR]

theorem mem_of_mem_getNodes (hy : y ∈ N) {z : NodeID} {n : ℕ}
    (hz : z ∈ (c y).ring.getNodes k n) : z ∈ N := by
  rw [(h.wf hy).getNodes_eq] at hz
  rw [← h.nodes y hy]
  exact (h.wf hy).mem_order.1 (List.mem_of_mem_take hz)

end

end Fixed

/-! ## Deliveries -/

/-- The delivery of one write to connected nodes: it is applied there and nowhere
    else. -/
theorem deliver_write {y : NodeID} {rm : ReplicationManager} {key : Key} {m : ReplicateRequest}
    (hm : IsWrite key m) (arrival : Send → Time) {sends : List Send}
    (hsend : ∀ s ∈ sends, s.req = m ∧ s.nodeID ∈ rm.peerConns) {c : Cluster}
    (hrm : (c y).replicationMgr = some rm) (z : NodeID) :
    SameWiring (c z) (run (Cluster.sendReplicate y arrival) c sends z) ∧
      ∀ k, (run (Cluster.sendReplicate y arrival) c sends z).store.entry k =
        if k = key ∧ z ∈ sends.map Send.nodeID then (effectOf m).map Store.persistent
        else (c z).store.entry k := by
  induction sends generalizing c with
  | nil => exact ⟨.refl _, fun k => by simp⟩
  | cons s sends ih =>
    obtain ⟨hreq, hconn⟩ := hsend s List.mem_cons_self
    have hstep : Cluster.sendReplicate y arrival c s =
        Function.update c s.nodeID ((c s.nodeID).replicate (arrival s) m) := by
      simp [Cluster.sendReplicate, hrm, hconn, hreq]
    have hrm' : (Cluster.sendReplicate y arrival c s y).replicationMgr = some rm := by
      rw [hstep]
      by_cases hy : y = s.nodeID
      · rw [← hy, Function.update_self, replicate_replicationMgr, hrm]
      · rw [Function.update_of_ne hy, hrm]
    obtain ⟨hw, hentry⟩ := ih (fun t ht => hsend t (List.mem_cons_of_mem _ ht)) hrm'
    rw [run_cons]
    by_cases hz : z = s.nodeID
    · subst hz
      have hsz : Cluster.sendReplicate y arrival c s s.nodeID =
          (c s.nodeID).replicate (arrival s) m := by rw [hstep, Function.update_self]
      rw [hsz] at hw hentry
      refine ⟨((c s.nodeID).replicate_sameWiring _ m).trans hw, fun k => ?_⟩
      rw [hentry, entry_replicate _ _ hm]
      by_cases hk : k = key <;> simp [hk]
    · have hsz : Cluster.sendReplicate y arrival c s z = c z := by
        rw [hstep, Function.update_of_ne hz]
      rw [hsz] at hw hentry
      refine ⟨hw, fun k => ?_⟩
      rw [hentry]
      simp [hz]

/-! ## The simulation -/

/-- Every replica of a client key holds what the map has for it. -/
def Holds (N : Finset NodeID) (R : ℕ) (m : GlobalMap) (c : Cluster) : Prop :=
  ∀ x ∈ N, ∀ k, ¬ IsShardKey k → x ∈ (c x).ring.getNodes k R →
    (c x).store.entry k = (m k).map Store.persistent

section
variable {N : Finset NodeID} {vnodeCount : ℤ} {R : ℕ} {c : Cluster} {m : GlobalMap} {y : NodeID}

/-- A request on a fixed cluster is served by one node, which sends its messages. -/
theorem Fixed.request_eq (h : Fixed N vnodeCount R c) {call : Call} (hx : call.node ∈ N)
    {fuel : ℕ} (hfuel : 2 ≤ fuel) :
    ∃ y ∈ N, ∃ rm t resp sends, (c y).replicationMgr = some rm ∧
      call.req.serves rm (c y).ring call.req.key = true ∧
      ((c y).serve t call.req).1 = .reply resp sends ∧
      c.request fuel call = some (resp,
        run (Cluster.sendReplicate y call.arrival) (Function.update c y ((c y).serve t call.req).2)
          (call.schedule.order sends)) := by
  obtain ⟨y, hy, hf, before, hchain⟩ := h.chain hx call.req call.now hfuel
  obtain ⟨rm, hrm, hs⟩ := h.serves_of_forwardTarget hy hf
  refine ⟨y, hy, rm, call.now before.length, ?_⟩
  cases hr : ((c y).serve (call.now before.length) call.req).1 with
  | proxy p => exact absurd hr ((c y).serve_ne_proxy _ _ p)
  | reply resp sends =>
    refine ⟨resp, sends, hrm, hs, rfl, ?_⟩
    simp [Cluster.request, hchain, hr, CacheServer.step, (c y).handle_serve _ _ hf]

/-- Another state of one node, which still holds what the map has. -/
theorem Fixed.update (h : Fixed N vnodeCount R c) {cs : CacheServer}
    (hw : SameWiring (c y) cs) : Fixed N vnodeCount R (Function.update c y cs) := by
  refine h.of_sameWiring fun x _ => ?_
  by_cases hxy : x = y
  · subst hxy; rw [Function.update_self]; exact hw
  · rw [Function.update_of_ne hxy]; exact .refl _

theorem Holds.update (hm : Holds N R m c) {cs : CacheServer} (hw : SameWiring (c y) cs)
    (he : ∀ k, ¬ IsShardKey k → cs.store.entry k = (c y).store.entry k) :
    Holds N R m (Function.update c y cs) := by
  intro x hx k hk hrep
  by_cases hxy : x = y
  · subst hxy
    rw [Function.update_self] at hrep ⊢
    rw [he k hk]
    exact hm x hx k hk (hw.ring ▸ hrep)
  · rw [Function.update_of_ne hxy] at hrep ⊢
    exact hm x hx k hk hrep

/-- A write served by the primary `y` and delivered to all secondaries is a write of
    the map. -/
theorem Holds.write (h : Fixed N vnodeCount R c) (hm : Holds N R m c) (hy : y ∈ N)
    {rm : ReplicationManager} (hrm : (c y).replicationMgr = some rm) {cs : CacheServer}
    (hw : SameWiring (c y) cs) {key : Key} {msg : ReplicateRequest} (hmsg : IsWrite key msg)
    (he : ∀ k, ¬ IsShardKey k → cs.store.entry k =
      if k = key then (effectOf msg).map Store.persistent else (c y).store.entry k)
    (sched : Schedule) (arrival : Send → Time) :
    let c' := run (Cluster.sendReplicate y arrival) (Function.update c y cs)
      (sched.order ((rm.getSecondaries (c y).ring key).map fun id => ⟨id, msg⟩))
    Fixed N vnodeCount R c' ∧ Holds N R (Function.update m key (effectOf msg)) c' := by
  intro c'
  have hfix := h.update hw
  obtain ⟨rm', hrm', -, -, hconn⟩ := hfix.manager y hy
  have hmem : ∀ s, s ∈ sched.order ((rm.getSecondaries (c y).ring key).map fun id => ⟨id, msg⟩) ↔
      (s.nodeID ∈ (c y).ring.getNodes key R ∧ s.nodeID ≠ y) ∧ s.req = msg := by
    intro s
    rw [(sched.perm _).mem_iff, List.mem_map]
    constructor
    · rintro ⟨id, hid, rfl⟩
      exact ⟨(h.mem_getSecondaries hy hrm).1 hid, rfl⟩
    · rintro ⟨hid, hreq⟩
      exact ⟨s.nodeID, (h.mem_getSecondaries hy hrm).2 hid, by rw [← hreq]⟩
  have hdel := deliver_write hmsg arrival (y := y) (c := Function.update c y cs)
    (fun s hs => ⟨((hmem s).1 hs).2, hconn _ (h.mem_of_mem_getNodes hy ((hmem s).1 hs).1.1)
      ((hmem s).1 hs).1.2⟩) hrm'
  refine ⟨hfix.of_sameWiring fun x _ => (hdel x).1, fun x hx k hk hrep => ?_⟩
  have hring : (c' x).ring = (c x).ring := by
    rw [(hdel x).1.ring]
    by_cases hxy : x = y
    · subst hxy; rw [Function.update_self, hw.ring]
    · rw [Function.update_of_ne hxy]
  rw [hring] at hrep
  rw [(hdel x).2 k]
  by_cases hkey : k = key
  · subst hkey
    rw [Function.update_self]
    by_cases hxy : x = y
    · subst hxy
      split_ifs
      · rfl
      · rw [Function.update_self, he k hk, if_pos rfl]
    · have : x ∈ (sched.order ((rm.getSecondaries (c y).ring k).map fun id => ⟨id, msg⟩)).map
          Send.nodeID := by
        refine List.mem_map.2 ⟨⟨x, msg⟩, (hmem _).2 ⟨⟨?_, hxy⟩, rfl⟩, rfl⟩
        exact h.getNodes_eq hx hy k R ▸ hrep
      rw [if_pos ⟨rfl, this⟩]
  · rw [if_neg fun hc => hkey hc.1, Function.update_of_ne hkey]
    by_cases hxy : x = y
    · subst hxy
      rw [Function.update_self, he k hk, if_neg hkey]
      exact hm x hx k hk hrep
    · rw [Function.update_of_ne hxy]
      exact hm x hx k hk hrep

/-- **One request.**  It is answered as by the map, and the invariant is kept. -/
theorem Holds.request (h : Fixed N vnodeCount R c) (hm : Holds N R m c) {call : Call}
    (hx : call.node ∈ N) (hp : Plain call.req) {fuel : ℕ} (hfuel : 2 ≤ fuel) :
    ∃ resp c', c.request fuel call = some (resp, c') ∧ resp.answer = (m.exec call.req).1 ∧
      Fixed N vnodeCount R c' ∧ Holds N R (m.exec call.req).2 c' := by
  obtain ⟨y, hy, rm, t, resp, sends, hrm, hs, hserve, hreq⟩ := h.request_eq hx hfuel
  refine ⟨resp, _, hreq, ?_⟩
  have hw := (c y).serve_sameWiring t call.req
  obtain ⟨hkey, hp⟩ := hp
  have hentry := hm y hy _ hkey (h.mem_replicas hy hrm hs)
  generalize call.req = req at hkey hp hs hserve hw hentry ⊢
  cases req with
  | get req =>
    obtain ⟨⟨isHot, hresp⟩, he⟩ := (c y).serveGet_persistent t hentry
    have hreply := hresp.symm.trans hserve
    simp only [Handled.reply.injEq] at hreply
    obtain ⟨rfl, rfl⟩ := hreply
    rw [List.perm_nil.1 (call.schedule.perm []), run_nil]
    exact ⟨rfl, h.update hw, hm.update hw fun k hk => he k (spares_of_not_isShardKey hk _)⟩
  | set req =>
    obtain ⟨key, value, ttlMs⟩ := req
    obtain rfl : ttlMs = 0 := hp
    have hsends := ifPrimary_replicate
      { c y with store := (c y).write t key value (ttlOfMs 0) } hrm hs
      fun rm seq => ⟨key, value, 0, seq, rm.selfID, .set⟩
    have hreply : Handled.reply (.set ⟨true⟩) _ = _ := (congrArg _ hsends.symm).trans hserve
    simp only [Handled.reply.injEq] at hreply
    obtain ⟨rfl, rfl⟩ := hreply
    refine ⟨rfl, hm.write h hy hrm hw ⟨rfl, rfl, Or.inl rfl⟩ (fun k hk => ?_) _ _⟩
    exact (c y).entry_serve_set t (spares_of_not_isShardKey hk _) value 0
  | delete req =>
    obtain ⟨key⟩ := req
    have hsends := ifPrimary_replicate { c y with store := ((c y).store.delete key).2 } hrm hs
      fun rm seq => ⟨key, [], 0, seq, rm.selfID, .delete⟩
    have hreply : Handled.reply (.delete ⟨((c y).store.delete key).1⟩) _ = _ :=
      (congrArg _ hsends.symm).trans hserve
    simp only [Handled.reply.injEq] at hreply
    obtain ⟨rfl, rfl⟩ := hreply
    refine ⟨?_, hm.write h hy hrm hw ⟨rfl, rfl, Or.inr rfl⟩ (fun k hk => ?_) _ _⟩
    · have : ((c y).store.entry key).isSome = (m key).isSome := by
        rw [show (c y).store.entry key = _ from hentry, Option.isSome_map]; rfl
      simp only [Response.answer, GlobalMap.exec, Store.delete_fst, this]
    · exact (c y).entry_serve_delete t key k
  | expire req => exact hp.elim

/-- The decay of a detector changes no entry. -/
theorem Holds.decay (h : Fixed N vnodeCount R c) (hm : Holds N R m c) (x : NodeID) :
    Fixed N vnodeCount R (c.decay x) ∧ Holds N R m (c.decay x) :=
  ⟨h.update ⟨rfl, rfl, rfl⟩, hm.update ⟨rfl, rfl, rfl⟩ fun _ _ => rfl⟩

end

/-- The requests of an event enter at a node of `N`, and are plain. -/
def PlainEvent (N : Finset NodeID) : Cluster.Event → Prop
  | .request call => call.node ∈ N ∧ Plain call.req
  | .decay _ => True

theorem Holds.serveAll {N : Finset NodeID} {vnodeCount : ℤ} {R fuel : ℕ} (hfuel : 2 ≤ fuel)
    {events : List Cluster.Event} (hev : ∀ e ∈ events, PlainEvent N e) {c : Cluster}
    {m : GlobalMap} (h : Fixed N vnodeCount R c) (hm : Holds N R m c) :
    (c.serveAll fuel events).map (List.map Response.answer) = some (m.answers events) := by
  induction events generalizing c m with
  | nil => rfl
  | cons e events ih =>
    have hrest : ∀ e ∈ events, PlainEvent N e := fun e he => hev e (List.mem_cons_of_mem _ he)
    cases e with
    | request call =>
      obtain ⟨hx, hp⟩ := hev (.request call) List.mem_cons_self
      obtain ⟨resp, c', hreq, hans, h', hm'⟩ := hm.request h hx hp hfuel
      have := ih hrest h' hm'
      obtain ⟨resps, hresps, heq⟩ := Option.map_eq_some_iff.1 this
      simp [Cluster.serveAll, hreq, hresps, GlobalMap.answers, hans, heq]
    | decay x =>
      obtain ⟨h', hm'⟩ := hm.decay h x
      exact ih hrest h' hm'

/-- **A fixed cluster refines one map.**  With identical rings, all connections up and
    empty stores, every run of plain requests, each executed to the end before
    the next one, is answered as by a single map, whatever the mitigators do. -/
theorem cluster_refines_map (N : Finset NodeID) (vnodeCount : ℤ) (R : ℕ) (c : Cluster)
    (h : Fixed N vnodeCount R c) (hempty : ∀ x ∈ N, ∀ k, (c x).store.entry k = none)
    (events : List Cluster.Event) (hev : ∀ e ∈ events, PlainEvent N e) (fuel : ℕ)
    (hfuel : 2 ≤ fuel) :
    (c.serveAll fuel events).map (List.map Response.answer) =
      some (GlobalMap.answers (fun _ => none) events) :=
  Holds.serveAll hfuel hev h fun x hx k _ _ => hempty x hx k

/-- Two nodes that replicate every key, with mitigators that split a key at its first
    read. -/
def pairCluster (x : NodeID) : CacheServer :=
  { pairNode x with hotKeyMitigator := some (.new (.new 1) 2) }

theorem pairCluster_fixed : Fixed {ascii ['a'], ascii ['b']} 1 2 pairCluster where
  nodeID _ _ := rfl
  built _ _ := ⟨.insertion, 0, _, rfl⟩
  nodes := by decide +kernel
  manager x hx := by
    have : x = ascii ['a'] ∨ x = ascii ['b'] := by simpa using hx
    rcases this with rfl | rfl <;> exact ⟨_, rfl, rfl, by decide +kernel, by decide +kernel⟩
  noCollision := by decide

theorem not_isShardKey_of_length {k : Key} (h : k.length < 7) : ¬ IsShardKey k := by
  rintro ⟨key, i, rfl⟩
  simp only [shardKeyName, ascii, List.length_append, List.length_map, List.length_cons,
    List.length_nil] at h
  omega

/-- A request at time `0`, whose messages are delivered in the order sent. -/
def callAt (node : NodeID) (req : Request) : Call := ⟨node, req, fun _ => 0, ⟨id, .refl⟩, fun _ => 0⟩

/-- A key is written at `b`, read at both nodes, deleted at `a` and read again. -/
theorem cluster_refines_map_pair :
    (Cluster.serveAll 2 pairCluster
      [.request (callAt (ascii ['b']) (.set ⟨[1], [7], 0⟩)),
        .request (callAt (ascii ['a']) (.get ⟨[1]⟩)), .request (callAt (ascii ['b']) (.get ⟨[1]⟩)),
        .request (callAt (ascii ['a']) (.delete ⟨[1]⟩)),
        .request (callAt (ascii ['b']) (.get ⟨[1]⟩))]).map (List.map Response.answer) =
      some [.set true, .get true [7], .get true [7], .delete true, .get false []] := by
  refine cluster_refines_map {ascii ['a'], ascii ['b']} 1 2 pairCluster pairCluster_fixed
    (fun x _ k => Store.newWithShards_entry k 1) _ ?_ 2 le_rfl
  have hkey : ¬ IsShardKey [1] := not_isShardKey_of_length (by decide)
  simp [PlainEvent, Plain, callAt, Request.key, hkey]

end DistCache
