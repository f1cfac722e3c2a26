/-
  Do a client and the servers agree on the primary of a key?

  Both walk clockwise from the key to the nearest vnode (`Nearest`), but the ring of a client has
  150 vnodes per node, and the ring of a server as many as its configuration says.  They agree
  exactly if the nearest node is the same for both numbers (`client_agrees_iff`).
-/
import DistCache.Client
import DistCache.Config
import DistCache.Proof.BoundedLoad
import DistCache.Proof.Store

namespace DistCache

open Lib DistCache.Ring DistCache.Config

/-! ## Configurations -/

namespace Config

/-- The configurations that are accepted. -/
theorem validate_ok_iff (c : Config) :
    c.validate = .ok () ↔
      c.nodeID ≠ [] ∧ c.grpcAddr ≠ [] ∧ c.httpAddr ≠ [] ∧ 1 ≤ c.replicaCount ∧
        1 ≤ c.virtualNodes ∧ 0 < c.sweepInterval ∧ 0 ≤ c.maxLoadFactor := by
  have hset : ∀ (field : ConfigField) (value : GoString) (rest : Except ConfigError Unit),
      (checkSet field value >>= fun _ => rest) = .ok () ↔ value ≠ [] ∧ rest = .ok () := by
    intro field value rest
    by_cases hv : value = [] <;> simp [checkSet, hv, bind, Except.bind]
  have hcount : ∀ (field : ConfigField) (value : ℤ) (rest : Except ConfigError Unit),
      (checkCount field value >>= fun _ => rest) = .ok () ↔ 1 ≤ value ∧ rest = .ok () := by
    intro field value rest
    by_cases hv : value < 1
    · simp [checkCount, hv, bind, Except.bind]
    · simp [checkCount, hv, bind, Except.bind, not_lt.1 hv]
  unfold validate
  rw [hset, hset, hset, hcount, hcount]
  by_cases hs : c.sweepInterval ≤ 0
  · simp [hs, Int64.not_lt.2 hs, bind, Except.bind]
  · by_cases hm : c.maxLoadFactor < 0
    · simp [hs, hm, bind, Except.bind]
    · simp [hs, hm, Int64.not_le.1 hs, not_lt.1 hm]

/-- The default configuration lacks a node ID only. -/
theorem validate_default (nodeID : NodeID) :
    { default with nodeID }.validate = checkSet .nodeID nodeID := by
  by_cases hid : nodeID = []
  · subst hid
    rfl
  · rw [checkSet, if_neg hid]
    have hdefault : default.grpcAddr ≠ [] ∧ default.httpAddr ≠ [] ∧ 1 ≤ default.replicaCount ∧
        1 ≤ default.virtualNodes ∧ 0 < default.sweepInterval ∧ 0 ≤ default.maxLoadFactor := by
      decide +kernel
    exact (validate_ok_iff _).2 ⟨hid, hdefault⟩

end Config

/-! ## The nearest node -/

namespace Ring

/-- With `V` vnodes per node, `p` is strictly closer to the key than the other nodes of `N`. -/
def Nearest (V : ℕ) (N : Finset NodeID) (key : Key) (p : NodeID) : Prop :=
  p ∈ N ∧ ∀ x ∈ N, x ≠ p → reach V (hashKey key) p < reach V (hashKey key) x

variable {r r' : Ring} {key : Key} {p : NodeID}

/-- One of the vnodes of `p` comes before all vnodes of the others. -/
theorem nearest_of_vnode {V i : ℕ} {N : Finset NodeID} (hi : i < V) (hp : p ∈ N)
    (h : ∀ x ∈ N, x ≠ p → ∀ j < V,
      cw (hashKey key) (hashVNode p i) < cw (hashKey key) (hashVNode x j)) :
    Nearest V N key p := by
  refine ⟨hp, fun x hx hne => ?_⟩
  obtain ⟨j, hj, hxj⟩ := exists_reach (i.zero_le.trans_lt hi) (hashKey key) x
  rw [hxj]
  exact (reach_le hi).trans_lt (h x hx hne j hj)

theorem NoCollision.of_le {V W : ℕ} {N : Finset NodeID} (h : NoCollision W N) (hV : V ≤ W) :
    NoCollision V N := by
  intro x hx y hy i hi j hj
  exact h x hx y hy i (hi.trans_le hV) j (hj.trans_le hV)

theorem WF.head_of_nearest (h : r.WF) (hp : Nearest r.nodeVnodes r.nodes key p) :
    (r.order key).head? = some p := by
  obtain ⟨q, l, hl⟩ := List.exists_cons_of_ne_nil (h.order_ne_nil hp.1 key)
  have hq : (r.order key).head? = some q := by rw [hl]; rfl
  have hqm : q ∈ r.nodes := h.mem_order.1 (List.mem_of_mem_head? hq)
  rw [hq, Option.some_inj]
  by_contra hne
  exact absurd (hp.2 q hqm hne) (not_lt.2 (h.reach_head hq hp.1))

theorem WF.nearest_of_head (h : r.WF) (hN : NoCollision r.nodeVnodes r.nodes)
    (hp : (r.order key).head? = some p) : Nearest r.nodeVnodes r.nodes key p := by
  refine ⟨h.mem_order.1 (List.mem_of_mem_head? hp), fun x hx hne => ?_⟩
  exact h.reach_primary hN (Finset.Subset.refl _) hp hx (Ne.symm hne)

/-- Two rings with the same members, and a node that is nearest on both. -/
theorem WF.head_eq_of_nearest (h : r.WF) (h' : r'.WF) (hn : r'.nodes = r.nodes)
    (hp : Nearest r.nodeVnodes r.nodes key p) (hp' : Nearest r'.nodeVnodes r.nodes key p) :
    (r.order key).head? = (r'.order key).head? := by
  rw [← hn] at hp'
  rw [h.head_of_nearest hp, h'.head_of_nearest hp']

theorem WF.exists_nearest_of_head_eq (h : r.WF) (h' : r'.WF) (hn : r'.nodes = r.nodes)
    (hne : r.nodes.Nonempty) (hN : NoCollision r.nodeVnodes r.nodes)
    (hN' : NoCollision r'.nodeVnodes r.nodes) (heq : (r.order key).head? = (r'.order key).head?) :
    ∃ p, Nearest r.nodeVnodes r.nodes key p ∧ Nearest r'.nodeVnodes r.nodes key p := by
  obtain ⟨x, hx⟩ := hne
  obtain ⟨p, l, hl⟩ := List.exists_cons_of_ne_nil (h.order_ne_nil hx key)
  have hp : (r.order key).head? = some p := by rw [hl]; rfl
  have hnear' := h'.nearest_of_head (hn.symm ▸ hN') (heq.symm.trans hp)
  rw [hn] at hnear'
  exact ⟨p, h.nearest_of_head hN hp, hnear'⟩

theorem WF.getPrimary_eq (h : r.WF) (rm : ReplicationManager) (key : Key) :
    rm.getPrimary r key = (r.order key).head? := by
  rw [ReplicationManager.getPrimary, h.getNodes_eq, List.head?_take, if_neg one_ne_zero]

end Ring

/-! ## The client -/

namespace Client

variable {S : SortSlice} {c c' : Client} {N : Finset NodeID}

/-- A client with idle connections to the nodes of `N`. -/
structure RoutesTo (c : Client) (N : Finset NodeID) : Prop where
  wf : c.ring.WF
  vnodes : c.ring.nodeVnodes = 150
  nodes : c.ring.nodes = N
  idle : ∀ x ∈ N, c.ring.load x = 0
  conns : ∀ x ∈ N, x ∈ c.conns

theorem RoutesTo.addNode (h : c.RoutesTo N) {dial : NodeID → GoString → Bool} {nodeID : NodeID}
    {addr : GoString} (hadd : c.addNode S dial nodeID addr = some c') :
    c'.RoutesTo (insert nodeID N) := by
  unfold Client.addNode at hadd
  split_ifs at hadd
  obtain rfl := Option.some.inj hadd
  refine ⟨addNode_wf h.wf nodeID, ?_, ?_, fun x hx => ?_, fun x hx => ?_⟩
  · exact (addNode_nodeVnodes S c.ring nodeID).trans h.vnodes
  · rw [addNode_nodes, h.nodes]
  · by_cases hmem : nodeID ∈ c.ring.nodes
    · rw [Finset.insert_eq_of_mem (h.nodes ▸ hmem)] at hx
      rw [Ring.addNode, if_pos hmem]
      exact h.idle x hx
    · rw [load_addNode hmem]
      split_ifs with he
      · rfl
      · exact h.idle x ((Finset.mem_insert.1 hx).resolve_left he)
  · rw [Finmap.mem_insert]
    exact (Finset.mem_insert.1 hx).imp_right (h.conns x)

theorem RoutesTo.addNodes {dial : NodeID → GoString → Bool} :
    ∀ {l : List (Σ _ : NodeID, GoString)} {c : Client} {N : Finset NodeID}, c.RoutesTo N →
      c.addNodes S dial l = .ok c' → c'.RoutesTo (N ∪ (l.map Sigma.fst).toFinset)
  | [], c, N, h, he => by
    obtain rfl : c = c' := Except.ok.inj he
    simpa using h
  | ⟨nodeID, addr⟩ :: rest, c, N, h, he => by
    unfold Client.addNodes at he
    rcases hadd : c.addNode S dial nodeID addr with _ | c₁
    · rw [hadd] at he
      exact nomatch he
    · rw [hadd] at he
      have hrest := RoutesTo.addNodes (h.addNode hadd) he
      rw [List.map_cons, List.toFinset_cons, Finset.union_insert, ← Finset.insert_union]
      exact hrest

/-- The client that `NewClient` returns. -/
theorem routesTo_new {ord : RangeOrder NodeID GoString} {dial : NodeID → GoString → Bool}
    {nodes : GoMap NodeID GoString} {l1Cache : Option L1Cache}
    (hc : Client.new S ord dial nodes l1Cache = .ok c) : c.RoutesTo nodes.keys := by
  have hnew : RoutesTo ⟨.new 150 (1 / 4), ∅, l1Cache⟩ ∅ :=
    ⟨new_wf _ _, rfl, rfl, by simp, by simp⟩
  have h := hnew.addNodes hc
  have hkeys : ∅ ∪ ((ord.list nodes).map Sigma.fst).toFinset = nodes.keys := by
    ext x
    rw [Finset.empty_union, List.mem_toFinset, ord.mem_keys, Finmap.mem_keys]
  rwa [hkeys] at h

theorem addNodes_ok {dial : NodeID → GoString → Bool} (hdial : ∀ x addr, dial x addr = true) :
    ∀ (l : List (Σ _ : NodeID, GoString)) (c : Client), ∃ c', c.addNodes S dial l = .ok c'
  | [], c => ⟨c, rfl⟩
  | ⟨nodeID, addr⟩ :: rest, c => by
    unfold Client.addNodes Client.addNode
    rw [if_pos (hdial nodeID addr)]
    exact addNodes_ok hdial rest _

/-- The ring of a client is idle: a key goes to the head of its clockwise order. -/
theorem RoutesTo.getConn (h : c.RoutesTo N) (key : Key) :
    (c.getConn key).toOption = (c.ring.order key).head? := by
  unfold Client.getConn
  rcases N.eq_empty_or_nonempty with rfl | hne
  · have horder : c.ring.order key = [] := by
      refine List.eq_nil_iff_forall_not_mem.2 fun x hx => ?_
      rw [h.wf.mem_order, h.nodes] at hx
      exact Finset.notMem_empty x hx
    have hget : c.ring.getNode key = none := by
      rw [h.wf.getNode_eq, horder]
      rfl
    rw [hget, horder]
    rfl
  · rw [← h.nodes] at hne
    obtain ⟨p, hone, hget⟩ := h.wf.getNode_idle hne (fun x hx => h.idle x (h.nodes ▸ hx)) key
    have hhead := h.wf.getNodes_one.1 hone
    have hp : p ∈ c.conns :=
      h.conns p (h.nodes ▸ h.wf.mem_order.1 (List.mem_of_mem_head? hhead))
    rw [hget, hhead]
    simp only [if_pos hp]
    rfl

end Client

/-! ## Agreement -/

/-- **When a client and the servers agree.**  Take any client, a server with an accepted
    configuration and with the same members, and a key.  If one node is nearest with 150 vnodes per
    node and with the configured number, then the client routes the key to the node that is the
    primary on the server.  Without hash collisions, they disagree otherwise; and they always
    agree if the configured number is 150. -/
theorem client_agrees_iff (S S' : SortSlice) (ord : RangeOrder NodeID GoString)
    (dial : NodeID → GoString → Bool) (nodes : GoMap NodeID GoString) (l1Cache : Option L1Cache)
    (c : Client) (hc : Client.new S ord dial nodes l1Cache = .ok c) (cfg : Config)
    (hcfg : cfg.validate = .ok ()) (ops : List Ring.Op) (key : Key) :
    let r := run (Ring.exec S') (cfg.ring S') ops
    let V := cfg.virtualNodes.toNat
    let agree := (c.getConn key).toOption = cfg.replicationMgr.getPrimary r key
    let sameNearest := ∃ p, Nearest 150 nodes.keys key p ∧ Nearest V nodes.keys key p
    r.nodes = nodes.keys →
      (sameNearest → agree) ∧
      (NoCollision (max V 150) nodes.keys → nodes.keys.Nonempty → (agree ↔ sameNearest)) ∧
      (V = 150 → NoCollision 150 nodes.keys → agree) := by
  intro r V agree sameNearest hnodes
  have hroutes := Client.routesTo_new hc
  have hb : Built S' cfg.virtualNodes r := ⟨cfg.maxLoadFactor, .addNode cfg.nodeID :: ops, rfl⟩
  have h : r.WF := built_wf hb
  have hV : r.nodeVnodes = V := by
    have hpos := ((validate_ok_iff cfg).1 hcfg).2.2.2.2.1
    rw [built_nodeVnodes hb, vnodesPerNode, new, if_neg (by omega)]
  have hagree : agree ↔ (c.ring.order key).head? = (r.order key).head? := by
    rw [← hroutes.getConn, ← h.getPrimary_eq cfg.replicationMgr]
  have hn : r.nodes = c.ring.nodes := hnodes.trans hroutes.nodes.symm
  have hsame : sameNearest ↔ ∃ p, Nearest c.ring.nodeVnodes c.ring.nodes key p ∧
      Nearest r.nodeVnodes c.ring.nodes key p := by
    rw [hroutes.vnodes, hroutes.nodes, hV]
  have hto : sameNearest → agree := by
    intro hs
    obtain ⟨p, hp, hp'⟩ := hsame.1 hs
    exact hagree.2 (hroutes.wf.head_eq_of_nearest h hn hp hp')
  refine ⟨hto, fun hN hne => ⟨fun ha => hsame.2 ?_, hto⟩, fun h150 hN => ?_⟩
  · rw [← hroutes.nodes] at hN hne
    refine hroutes.wf.exists_nearest_of_head_eq h hn hne ?_ ?_ (hagree.1 ha)
    · rw [hroutes.vnodes]
      exact hN.of_le (le_max_right V 150)
    · rw [hV]
      exact hN.of_le (le_max_left V 150)
  · rw [hagree, hroutes.wf.order_eq h]
    · rw [hroutes.vnodes, hV, h150]
    · exact hn.symm
    · rw [hroutes.vnodes, hroutes.nodes]
      exact hN

/-! ## Two nodes -/

/-- The nodes `a` and `b`. -/
def abNodes : GoMap NodeID GoString :=
  ((∅ : GoMap NodeID GoString).insert (ascii ['a']) (ascii ['x'])).insert (ascii ['b']) (ascii ['y'])

theorem abClient : ∃ c, Client.new .insertion default (fun _ _ => true) abNodes none = .ok c :=
  Client.addNodes_ok (fun _ _ => rfl) _ _

/-- A server with one vnode per node. -/
def oneVnode : Config := { Config.default with nodeID := ascii ['a'], virtualNodes := 1 }

/-- The ring of that server, once it knows the other node. -/
def oneVnodeRing : Ring := run (Ring.exec .insertion) (oneVnode.ring .insertion) [.addNode (ascii ['b'])]

/-- For the key `k`, the node `a` is nearest with one vnode and with 150. -/
theorem client_agrees_k :
    ∃ c, Client.new .insertion default (fun _ _ => true) abNodes none = .ok c ∧
      (c.getConn (ascii ['k'])).toOption =
        oneVnode.replicationMgr.getPrimary oneVnodeRing (ascii ['k']) := by
  obtain ⟨c, hc⟩ := abClient
  refine ⟨c, hc, ?_⟩
  refine (client_agrees_iff .insertion .insertion default (fun _ _ => true) abNodes none c hc
    oneVnode (by decide +kernel) [.addNode (ascii ['b'])] (ascii ['k']) (by decide)).1
    ⟨ascii ['a'], ?_, ?_⟩
  · exact nearest_of_vnode (i := 140) (by decide) (by decide) (by decide +kernel)
  · exact nearest_of_vnode (i := 0) (by decide) (by decide) (by decide +kernel)

/-- For the key `key`, the client goes to `b` and the server has the primary `a`. -/
theorem client_disagrees_key :
    oneVnode.validate = .ok () ∧
      oneVnode.replicationMgr.getPrimary oneVnodeRing (ascii ['k', 'e', 'y']) = some (ascii ['a']) ∧
      ∃ c, Client.new .insertion default (fun _ _ => true) abNodes none = .ok c ∧
        oneVnodeRing.nodes = c.ring.nodes ∧
        (c.getConn (ascii ['k', 'e', 'y'])).toOption = some (ascii ['b']) := by
  obtain ⟨c, hc⟩ := abClient
  have h := Client.routesTo_new hc
  refine ⟨by decide +kernel, by decide +kernel, c, hc, ?_, ?_⟩
  · rw [h.nodes]
    decide
  · rw [h.getConn]
    refine h.wf.head_of_nearest ?_
    rw [h.vnodes, h.nodes]
    exact nearest_of_vnode (i := 20) (by decide) (by decide) (by decide +kernel)

end DistCache
