/-
  Failover after the failure of one node.

  When the nodes remove the dead node `d` from their rings, only the new primary of
  a key sends it, and it held the key before (`FailInv.sends`).  So the messages about the
  key carry its value, whatever copies other nodes have, and a new replica has got the value
  or a message to it is on its way (`FailInv.sent`).
-/
import DistCache.Net
import DistCache.Proof.Refine
import DistCache.Proof.Scan

namespace DistCache

open Lib CacheServer DistCache.Ring

/-! ## The removal at one node -/

section
variable {w : Wired} {ord : RangeOrder Key Entry} {now : Time} {d : NodeID}

theorem onEvent_removes {event : MembershipEvent} (h : event.Removes d) (env : Env) :
    w.onEvent env ord now event = w.removeNode ord now d := by
  obtain ⟨rfl, htype | htype⟩ := h <;> simp only [Wired.onEvent, htype]

theorem removeNode_of_notMem (hd : d ∉ w.server.ring.nodes) : w.removeNode ord now d = w := by
  simp [Wired.removeNode, Ring.removeNode, hd]

theorem removeNode_of_mem {rm : ReplicationManager} (hrm : w.server.replicationMgr = some rm)
    (hd : d ∈ w.server.ring.nodes) :
    w.removeNode ord now d =
      { w with
        server :=
          { w.server with
            ring := (w.server.ring.removeNode d).1
            replicationMgr := some (rm.handleNodeFailure (w.server.ring.removeNode d).1 ord
              w.server.store now d).1 }
        sends := w.sends ++ (rm.handleNodeFailure (w.server.ring.removeNode d).1 ord
          w.server.store now d).2 } := by
  simp [Wired.removeNode, removeNode_snd, hd, Wired.onNodeRemoved, Wired.withManager, hrm]

theorem removeNode_store : (w.removeNode ord now d).server.store = w.server.store := by
  simp only [Wired.removeNode, Wired.onNodeRemoved, Wired.withManager]
  split_ifs
  · split <;> rfl
  · rfl

end

/-- A live node while the dead node `d` is being removed; `O` is the clockwise order of the
    key before the failure. -/
structure Survivor (O : List NodeID) (R : ℕ) (d : NodeID) (k : Key) (x : NodeID)
    (cs : CacheServer) : Prop where
  wf : cs.ring.WF
  order : cs.ring.order k = if d ∈ cs.ring.nodes then O else O.filter fun y => y ≠ d
  manager : ∃ rm, cs.replicationMgr = some rm ∧ rm.selfID = x ∧ rm.replicaCount = R ∧
    ∀ y ∈ O, y ≠ x → y ≠ d → y ∈ rm.peerConns
  placed : cs.store.Placed

/-- A message that writes the value `v` of `k`. -/
def WritesValue (k : Key) (v : Value) (m : ReplicateRequest) : Prop :=
  IsWrite k m ∧ effectOf m = some v

namespace Survivor

variable {O : List NodeID} {R : ℕ} {d x : NodeID} {k : Key} {w : Wired}
  {ord : RangeOrder Key Entry} {now : Time}

theorem removeNode (h : Survivor O R d k x w.server) :
    Survivor O R d k x (w.removeNode ord now d).server := by
  by_cases hd : d ∈ w.server.ring.nodes
  · obtain ⟨rm, hrm, hself, hR, hconn⟩ := h.manager
    rw [removeNode_of_mem hrm hd]
    have hd' : d ∉ (w.server.ring.removeNode d).1.nodes := by
      rw [removeNode_nodes]; exact Finset.notMem_erase d _
    refine ⟨removeNode_wf h.wf d, ?_, ⟨_, rfl, ?_⟩, h.placed⟩
    · show (w.server.ring.removeNode d).1.order k = _
      rw [h.wf.order_removeNode hd, h.order, if_pos hd, if_neg hd']
    · obtain ⟨hw, -, -⟩ := reReplicate_spec { rm with peerConns := rm.peerConns.erase d }
        (w.server.ring.removeNode d).1 ord w.server.store now
      simp only [wiring, Prod.mk.injEq] at hw
      obtain ⟨e1, e2, e3⟩ := hw
      refine ⟨e1.trans hself, e2.trans hR, fun y hy hyx hyd => ?_⟩
      rw [ReplicationManager.handleNodeFailure, e3]
      exact Finmap.mem_erase.2 ⟨hyd, hconn y hy hyx hyd⟩
  · rw [removeNode_of_notMem hd]; exact h

/-- What the scan of a node sends about `k`, once `d` is removed: only the new primary sends
    `k`, to all new replicas and with the value it has. -/
theorem removeNode_sends (h : Survivor O R d k x w.server) (v : Value)
    (ord : RangeOrder Key Entry) (now : Time) :
    (∀ send ∈ (w.removeNode ord now d).sends, send.req.key = k → send ∈ w.sends ∨
      (O.filter fun y => y ≠ d).head? = some x ∧
        (w.server.store.entry k = some (Store.persistent v) → WritesValue k v send.req)) ∧
    (∀ send ∈ w.sends, send ∈ (w.removeNode ord now d).sends) ∧
    (d ∈ w.server.ring.nodes → (O.filter fun y => y ≠ d).head? = some x →
      w.server.store.entry k = some (Store.persistent v) →
      ∀ z ∈ (O.filter fun y => y ≠ d).take R, z ≠ x →
        ∃ send ∈ (w.removeNode ord now d).sends, send.nodeID = z ∧ send.req.key = k) := by
  by_cases hd : d ∈ w.server.ring.nodes
  · obtain ⟨rm, hrm, hself, hR, -⟩ := h.manager
    have hwf := removeNode_wf h.wf d
    have horder : (w.server.ring.removeNode d).1.order k = O.filter fun y => y ≠ d := by
      rw [h.wf.order_removeNode hd, h.order, if_pos hd]
    rw [removeNode_of_mem hrm hd]
    obtain ⟨-, hfrom, hall⟩ := reReplicate_spec { rm with peerConns := rm.peerConns.erase d }
      (w.server.ring.removeNode d).1 ord w.server.store now
    have hprim : { rm with peerConns := rm.peerConns.erase d }.isPrimary
        (w.server.ring.removeNode d).1 k = true ↔ (O.filter fun y => y ≠ d).head? = some x := by
      simp only [ReplicationManager.isPrimary, hwf.getNodes_eq, horder, List.head?_take, hself,
        decide_eq_true_eq, if_neg one_ne_zero]
    refine ⟨fun send hs hkey => ?_, fun send hs => List.mem_append_left _ hs, ?_⟩
    · rcases List.mem_append.1 hs with hs | hs
      · exact Or.inl hs
      · obtain ⟨⟨key, value, ttl⟩, hv, hp, -, seq, hreq⟩ := hfrom send hs
        rw [hreq] at hkey
        obtain rfl : key = k := hkey
        refine Or.inr ⟨hprim.1 hp, fun he => ?_⟩
        obtain ⟨e, he', -, rfl, rfl⟩ := (Store.Placed.mem_visits _ _ _ h.placed).1 hv
        obtain rfl := Option.some.inj (he.symm.trans he')
        rw [hreq]
        exact ⟨⟨rfl, Duration.milliseconds_zero, Or.inl rfl⟩, rfl⟩
    · intro _ hx he z hz hzx
      have hv : (k, v, 0) ∈ w.server.store.visits ord now :=
        (Store.Placed.mem_visits _ _ _ h.placed).2 ⟨_, he, rfl, rfl, rfl⟩
      have hsec : z ∈ { rm with peerConns := rm.peerConns.erase d }.getSecondaries
          (w.server.ring.removeNode d).1 k := by
        simp only [ReplicationManager.getSecondaries, hwf.getNodes_eq, horder, hself, hR,
          List.mem_filter, decide_eq_true_eq]
        exact ⟨by simpa using hz, hzx⟩
      obtain ⟨send, hs, hz', -, -, seq, hreq⟩ := hall _ hv (hprim.2 hx) z hsec
      exact ⟨send, List.mem_append_right _ hs, hz', by rw [hreq]⟩
  · rw [removeNode_of_notMem hd]
    exact ⟨fun send hs _ => Or.inl hs, fun send hs => hs, fun hd' => absurd hd' hd⟩

/-- A message keeps a node as it is, up to its store. -/
theorem replicate {cs : CacheServer} (h : Survivor O R d k x cs) (m : ReplicateRequest) :
    Survivor O R d k x (cs.replicate now m) := by
  have hring : (cs.replicate now m).ring = cs.ring := (cs.replicate_sameWiring now m).ring
  refine ⟨hring ▸ h.wf, hring ▸ h.order, ?_, ?_⟩
  · rw [replicate_replicationMgr]; exact h.manager
  · unfold CacheServer.replicate
    split
    · exact Store.Placed.set _ _ _ h.placed _ _
    · exact Store.Placed.delete _ _ h.placed
    · exact h.placed

end Survivor

/-! ## Deliveries -/

theorem sendReplicate_eq {c : Cluster} {x : NodeID} {rm : ReplicationManager}
    (hrm : (c x).replicationMgr = some rm) (arrival : Send → Time) (send : Send) (y : NodeID) :
    c.sendReplicate x arrival send y =
      if y = send.nodeID ∧ y ∈ rm.peerConns then (c y).replicate (arrival send) send.req
      else c y := by
  simp only [Cluster.sendReplicate, hrm]
  by_cases hy : y = send.nodeID
  · subst hy
    by_cases hc : send.nodeID ∈ rm.peerConns <;> simp [hc]
  · simp only [hy, false_and, if_false]
    split_ifs
    · rw [Function.update_of_ne hy]
    · rfl

theorem Net.deliver_server {net : Net} {x : NodeID} {rm : ReplicationManager}
    (hrm : (net x).server.replicationMgr = some rm) (send : Send) (arrival : Time) (y : NodeID) :
    (net.deliver x send arrival y).server =
      if y = send.nodeID ∧ y ∈ rm.peerConns then (net y).server.replicate arrival send.req
      else (net y).server :=
  sendReplicate_eq (c := net.servers) hrm (fun _ => arrival) send y

theorem WritesValue.entry {m : ReplicateRequest} {k : Key} {v : Value} (h : WritesValue k v m)
    (cs : CacheServer) (now : Time) :
    (cs.replicate now m).store.entry k = some (Store.persistent v) := by
  rw [entry_replicate _ _ h.1, if_pos rfl, h.2]
  rfl

/-! ## The invariant -/

theorem filter_ne_eq_self {l : List NodeID} {d : NodeID} (h : d ∉ l) :
    (l.filter fun y => y ≠ d) = l := by
  refine List.filter_eq_self.2 fun y hy => ?_
  simp only [ne_eq, decide_eq_true_eq]
  rintro rfl
  exact h hy

/-- The first node after `d` is deleted was among the first two. -/
theorem head_filter_mem_take {O : List NodeID} (hnd : O.Nodup) {R : ℕ} (hR : 2 ≤ R) {d p : NodeID}
    (hp : (O.filter fun y => y ≠ d).head? = some p) : p ∈ O.take R := by
  obtain ⟨R, rfl⟩ : ∃ n, R = n + 2 := ⟨R - 2, by omega⟩
  rcases O with _ | ⟨a, l⟩
  · simp at hp
  · by_cases had : a = d
    · subst had
      rw [List.filter_cons_of_neg (by simp), filter_ne_eq_self (List.nodup_cons.1 hnd).1] at hp
      rcases l with _ | ⟨b, l⟩
      · simp at hp
      · simp only [List.head?_cons, Option.some.injEq] at hp
        simp [hp]
    · rw [List.filter_cons_of_pos (by simpa using had)] at hp
      simp only [List.head?_cons, Option.some.injEq] at hp
      simp [hp]

/-- What holds while the nodes of `O` other than `d` remove `d` and deliver their messages. -/
structure FailInv (O : List NodeID) (R : ℕ) (d : NodeID) (k : Key) (v : Value) (net : Net) :
    Prop where
  live : ∀ x ∈ O, x ≠ d → Survivor O R d k x (net x).server
  holds : ∀ x ∈ O.take R, x ≠ d → (net x).server.store.entry k = some (Store.persistent v)
  sends : ∀ x ∈ O, x ≠ d → ∀ send ∈ (net x).sends, send.req.key = k → WritesValue k v send.req
  sent : ∀ p, (O.filter fun y => y ≠ d).head? = some p → d ∉ (net p).server.ring.nodes →
    ∀ z ∈ (O.filter fun y => y ≠ d).take R,
      (net z).server.store.entry k = some (Store.persistent v) ∨
        ∃ send ∈ (net p).sends, send.nodeID = z ∧ send.req.key = k

namespace FailInv

variable {O : List NodeID} {R : ℕ} {d x : NodeID} {k : Key} {v : Value} {net : Net}

theorem handle (h : FailInv O R d k v net) (hnd : O.Nodup) (hR : 2 ≤ R) (hx : x ∈ O) (hxd : x ≠ d)
    {event : MembershipEvent} (hev : event.Removes d) (env : NodeID → Env)
    (ord : RangeOrder Key Entry) (now : Time) : FailInv O R d k v (net.handle env x event ord now) := by
  have hw := h.live x hx hxd
  obtain ⟨hfrom, hkeep, hnew⟩ := hw.removeNode_sends v ord now
  have hself : net.handle env x event ord now x = (net x).removeNode ord now d := by
    rw [Net.handle, Function.update_self, onEvent_removes hev]
  have hother : ∀ y, y ≠ x → net.handle env x event ord now y = net y := by
    intro y hy
    rw [Net.handle, Function.update_of_ne hy]
  have hstore : ∀ y, (net.handle env x event ord now y).server.store = (net y).server.store := by
    intro y
    by_cases hy : y = x
    · rw [hy, hself, removeNode_store]
    · rw [hother y hy]
  refine ⟨fun y hy hyd => ?_, fun y hy hyd => ?_, fun y hy hyd send hs hkey => ?_, ?_⟩
  · by_cases hyx : y = x
    · subst hyx; rw [hself]; exact hw.removeNode
    · rw [hother y hyx]; exact h.live y hy hyd
  · rw [hstore y]; exact h.holds y hy hyd
  · by_cases hyx : y = x
    · subst hyx
      rw [hself] at hs
      rcases hfrom send hs hkey with hs | ⟨hp, hval⟩
      · exact h.sends y hy hyd send hs hkey
      · exact hval (h.holds y (head_filter_mem_take hnd hR hp) hyd)
    · rw [hother y hyx] at hs; exact h.sends y hy hyd send hs hkey
  · intro p hp hdp z hz
    rw [hstore z]
    by_cases hpx : p = x
    · subst hpx
      rw [hself]
      have hholds := h.holds p (head_filter_mem_take hnd hR hp) hxd
      by_cases hd : d ∈ (net p).server.ring.nodes
      · by_cases hzp : z = p
        · subst hzp; exact Or.inl hholds
        · exact Or.inr (hnew hd hp hholds z hz hzp)
      · rcases h.sent p hp hd z hz with hz | ⟨send, hs, hrest⟩
        · exact Or.inl hz
        · exact Or.inr ⟨send, hkeep send hs, hrest⟩
    · rw [hother p hpx] at hdp ⊢
      exact h.sent p hp hdp z hz

theorem deliver (h : FailInv O R d k v net) (hnd : O.Nodup) (hR : 2 ≤ R) (hx : x ∈ O) (hxd : x ≠ d)
    {send : Send} (hsend : send ∈ (net x).sends) (arrival : Time) :
    FailInv O R d k v (net.deliver x send arrival) := by
  obtain ⟨rm, hrm, -, -, hconn⟩ := (h.live x hx hxd).manager
  have hserver := Net.deliver_server hrm send arrival
  have hsends : ∀ y, (net.deliver x send arrival y).sends =
      if y = x then (net y).sends.erase send else (net y).sends := fun y => rfl
  generalize net.deliver x send arrival = net' at hserver hsends ⊢
  -- a message about `k` writes `v`
  have hval : send.req.key = k → WritesValue k v send.req := h.sends x hx hxd send hsend
  have hkeep : ∀ y, (net y).server.store.entry k = some (Store.persistent v) →
      (net' y).server.store.entry k = some (Store.persistent v) := by
    intro y hy
    rw [hserver y]
    split_ifs
    · by_cases hkey : send.req.key = k
      · exact (hval hkey).entry _ _
      · rw [entry_replicate_of_ne hkey]; exact hy
    · exact hy
  constructor
  · intro y hy hyd
    rw [hserver y]
    split_ifs
    · exact (h.live y hy hyd).replicate send.req
    · exact h.live y hy hyd
  · intro y hy hyd
    exact hkeep y (h.holds y hy hyd)
  · intro y hy hyd s hs
    refine h.sends y hy hyd s ?_
    rw [hsends y] at hs
    split_ifs at hs
    · exact List.mem_of_mem_erase hs
    · exact hs
  · intro p hp hdp z hz
    have hring : (net' p).server.ring = (net p).server.ring := by
      rw [hserver p]
      split_ifs
      · exact ((net p).server.replicate_sameWiring arrival send.req).ring
      · rfl
    rw [hring] at hdp
    rcases h.sent p hp hdp z hz with hz' | ⟨s, hs, hsz, hkey⟩
    · exact Or.inl (hkeep z hz')
    · by_cases hdel : p = x ∧ s = send
      · -- this is the message that arrives
        obtain ⟨hpx, hss⟩ := hdel
        left
        obtain ⟨hzO, hzd⟩ := List.mem_filter.1 (List.mem_of_mem_take hz)
        by_cases hzp : z = p
        · rw [hzp]
          exact hkeep p (h.holds p (head_filter_mem_take hnd hR hp) (hpx ▸ hxd))
        · rw [hserver z, if_pos ⟨by rw [← hsz, hss], hconn z hzO (hpx ▸ hzp) (by simpa using hzd)⟩]
          exact (hval (hss ▸ hkey)).entry _ _
      · right
        refine ⟨s, ?_, hsz, hkey⟩
        rw [hsends p]
        split_ifs with hpx
        · exact (List.mem_erase_of_ne fun he => hdel ⟨hpx, he⟩).2 hs
        · exact hs

theorem step (h : FailInv O R d k v net) (hnd : O.Nodup) (hR : 2 ≤ R) {env : NodeID → Env}
    {a : Net.Act} (ha : net.Enabled (O.toFinset.erase d) (MembershipEvent.Removes d) a) :
    FailInv O R d k v (net.step env a) := by
  cases a with
  | handle x event ord now =>
    obtain ⟨hx, hev⟩ := ha
    obtain ⟨hxd, hx⟩ := Finset.mem_erase.1 hx
    exact h.handle hnd hR (List.mem_toFinset.1 hx) hxd hev env ord now
  | deliver x send arrival =>
    obtain ⟨hx, hs⟩ := ha
    obtain ⟨hxd, hx⟩ := Finset.mem_erase.1 hx
    exact h.deliver hnd hR (List.mem_toFinset.1 hx) hxd hs arrival

/-- Once all nodes have removed `d` and all messages have arrived, the new replicas hold the
    key. -/
theorem done (h : FailInv O R d k v net) {y : NodeID} (hy : y ∈ O) (hyd : y ≠ d)
    (hrem : ∀ x ∈ O, x ≠ d → d ∉ (net x).server.ring.nodes)
    (hsent : ∀ x ∈ O, x ≠ d → (net x).sends = []) :
    ∀ z ∈ (net y).server.ring.getNodes k R,
      (net z).server.store.entry k = some (Store.persistent v) := by
  intro z hz
  have hs := h.live y hy hyd
  rw [hs.wf.getNodes_eq, hs.order, if_neg (hrem y hy hyd)] at hz
  obtain ⟨p, l, hl⟩ := List.exists_cons_of_ne_nil (List.ne_nil_of_mem (List.mem_of_mem_take hz))
  have hmem : p ∈ O.filter fun y => y ≠ d := hl ▸ List.mem_cons_self
  obtain ⟨hpO, hpd⟩ := List.mem_filter.1 hmem
  have hpd : p ≠ d := by simpa using hpd
  rcases h.sent p (by rw [hl]; rfl) (hrem p hpO hpd) z hz with hz | ⟨s, hs, -⟩
  · exact hz
  · rw [hsent p hpO hpd] at hs
    exact absurd hs List.not_mem_nil

end FailInv

/-! ## Failover -/

/-- Nodes with identical rings over `N` and replica count `R`; those other than `d` are
    connected to each other. -/
structure BeforeFailure (N : Finset NodeID) (vnodeCount : ℤ) (R : ℕ) (d : NodeID) (net : Net) :
    Prop where
  built : ∀ x ∈ N, ∃ sort, Built sort vnodeCount (net x).server.ring
  nodes : ∀ x ∈ N, (net x).server.ring.nodes = N
  manager : ∀ x ∈ N, x ≠ d → ∃ rm, (net x).server.replicationMgr = some rm ∧ rm.selfID = x ∧
    rm.replicaCount = R ∧ ∀ y ∈ N, y ≠ x → y ≠ d → y ∈ rm.peerConns
  placed : ∀ x ∈ N, (net x).server.store.Placed
  idle : ∀ x ∈ N, (net x).sends = []
  noCollision : NoCollision (vnodesPerNode vnodeCount) N

namespace BeforeFailure

variable {N : Finset NodeID} {vnodeCount : ℤ} {R : ℕ} {d x y : NodeID} {net : Net} {k : Key}
  {v : Value}

theorem wf (h : BeforeFailure N vnodeCount R d net) (hx : x ∈ N) : (net x).server.ring.WF := by
  obtain ⟨sort, hb⟩ := h.built x hx
  exact built_wf hb

theorem order_eq (h : BeforeFailure N vnodeCount R d net) (hx : x ∈ N) (hy : y ∈ N) (k : Key) :
    (net x).server.ring.order k = (net y).server.ring.order k :=
  order_eq_of_nodes (h.built x hx) (h.built y hy) (h.nodes x hx) (h.nodes y hy) h.noCollision k

theorem mem_order (h : BeforeFailure N vnodeCount R d net) (hy : y ∈ N) :
    x ∈ (net y).server.ring.order k ↔ x ∈ N := by
  rw [(h.wf hy).mem_order, h.nodes y hy]

theorem failInv (h : BeforeFailure N vnodeCount R d net) (hy : y ∈ N)
    (hk : ∀ z ∈ (net y).server.ring.getNodes k R,
      (net z).server.store.entry k = some (Store.persistent v)) :
    FailInv ((net y).server.ring.order k) R d k v net := by
  rw [(h.wf hy).getNodes_eq] at hk
  constructor
  · intro x hx hxd
    have hxN := (h.mem_order hy).1 hx
    refine ⟨h.wf hxN, ?_, ?_, h.placed x hxN⟩
    · rw [h.order_eq hxN hy, h.nodes x hxN]
      split_ifs with hd
      · rfl
      · exact (filter_ne_eq_self fun hdO => hd ((h.mem_order hy).1 hdO)).symm
    · obtain ⟨rm, hrm, hself, hR, hconn⟩ := h.manager x hxN hxd
      exact ⟨rm, hrm, hself, hR, fun z hz => hconn z ((h.mem_order hy).1 hz)⟩
  · intro x hx _
    exact hk x hx
  · intro x hx _ send hs
    rw [h.idle x ((h.mem_order hy).1 hx)] at hs
    exact absurd hs List.not_mem_nil
  · intro p hp hd z hz
    have hpO := (List.mem_filter.1 (List.mem_of_mem_head? hp)).1
    -- `d` is no member at all
    have hdO : d ∉ (net y).server.ring.order k := by
      rw [h.mem_order hy, ← h.nodes p ((h.mem_order hy).1 hpO)]
      exact hd
    rw [filter_ne_eq_self hdO] at hz
    exact Or.inl (hk z hz)

end BeforeFailure

/-- **A single failure loses nothing.**  If every replica of a key holds its value, then after
    all other nodes have removed `d`, in any order, and all messages they sent have been
    delivered, in any order and interleaved with the removals, every new replica holds it,
    whatever the other nodes held. -/
theorem failover_keeps_key {N : Finset NodeID} {vnodeCount : ℤ} {R : ℕ} {d : NodeID} {net : Net}
    (h : BeforeFailure N vnodeCount R d net) (hR : 2 ≤ R) {k : Key} {v : Value}
    (hk : ∀ x ∈ N, ∀ z ∈ (net x).server.ring.getNodes k R,
      (net z).server.store.entry k = some (Store.persistent v))
    (env : NodeID → Env) (acts : List Net.Act)
    (hacts : Along (Net.step env) (Net.Enabled (N.erase d) (MembershipEvent.Removes d)) net acts)
    (hremoved : ∀ x ∈ N, x ≠ d → d ∉ (run (Net.step env) net acts x).server.ring.nodes)
    (hdelivered : ∀ x ∈ N, x ≠ d → (run (Net.step env) net acts x).sends = []) :
    ∀ x ∈ N, x ≠ d → ∀ z ∈ (run (Net.step env) net acts x).server.ring.getNodes k R,
      (run (Net.step env) net acts z).server.store.entry k = some (Store.persistent v) := by
  intro x hx hxd
  have hnd : ((net x).server.ring.order k).Nodup := distinct_nodup _ _
  have hN : ((net x).server.ring.order k).toFinset = N := by
    ext y; rw [List.mem_toFinset]; exact h.mem_order hx
  rw [← hN] at hacts
  have hinv := Along.inv (I := FailInv ((net x).server.ring.order k) R d k v)
    (fun net a hi ha => hi.step hnd hR ha) hacts (h.failInv hx (hk x hx))
  refine hinv.done ((h.mem_order hx).2 hx) hxd ?_ ?_
  · intro y hy; exact hremoved y ((h.mem_order hx).1 hy)
  · intro y hy; exact hdelivered y ((h.mem_order hx).1 hy)

/-- Three nodes with two replicas per key; the replicas of `[1]` are `a` and `c`, and `b` has
    an older copy. -/
def threeNet (x : NodeID) : Wired where
  m := .start x ⟨[], [], []⟩ none
  server :=
    { nodeWith .insertion 1 2 x [ascii ['a'], ascii ['b'], ascii ['c']] with
      store := (Store.newWithShards 1).set 0 [1] (if x = ascii ['b'] then [5] else [7]) 0 }
  sends := []

theorem threeNet_beforeFailure :
    BeforeFailure {ascii ['a'], ascii ['b'], ascii ['c']} 1 2 (ascii ['a']) threeNet where
  built _ _ := ⟨.insertion, 0, _, rfl⟩
  nodes := by decide +kernel
  manager x hx _ := by
    have : x = ascii ['a'] ∨ x = ascii ['b'] ∨ x = ascii ['c'] := by simpa using hx
    rcases this with rfl | rfl | rfl <;> exact ⟨_, rfl, rfl, by decide +kernel, by decide +kernel⟩
  placed _ _ := Store.Placed.set _ _ _ (Store.placed_newWithShards 1) _ _
  idle _ _ := rfl
  noCollision := by decide

/-- `a` fails; `b` learns of it first, then `c`, which sends the key to `b`. -/
theorem failover_keeps_key_three :
    (run (Net.step fun _ => ⟨.insertion, fun _ => true⟩) threeNet
      [.handle (ascii ['b']) ⟨.dead, ascii ['a']⟩ (.listing [⟨[1], ⟨[5], none⟩⟩]) 1,
        .handle (ascii ['c']) ⟨.dead, ascii ['a']⟩ (.listing [⟨[1], ⟨[7], none⟩⟩]) 2,
        .deliver (ascii ['c']) ⟨ascii ['b'], ⟨[1], [7], 0, 1, ascii ['c'], .set⟩⟩ 3]
      (ascii ['b'])).server.store.entry [1] = some (Store.persistent [7]) := by
  refine failover_keeps_key threeNet_beforeFailure le_rfl (by decide +kernel) _ _ ?_
    (by decide +kernel) (by decide +kernel) (ascii ['b']) (by decide) (by decide) (ascii ['b'])
    (by decide +kernel)
  exact ⟨⟨by decide, rfl, Or.inl rfl⟩, ⟨by decide, rfl, Or.inl rfl⟩, ⟨by decide, by decide +kernel⟩,
    trivial⟩

end DistCache
