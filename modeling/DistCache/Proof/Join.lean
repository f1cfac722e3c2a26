/-
  What a join does to the keys.

  The callbacks of a join add the new node to the rings and connect to it; they move
  no key (`SameKeys`).  A `Get` is answered from the store of the node where its forwarding
  chain ends (`Cluster.ServedAt`), so it misses if it ends at the new node.
-/
import DistCache.Net
import DistCache.Proof.Ownership
import DistCache.Proof.Refine

namespace DistCache

open Lib CacheServer DistCache.Ring

/-! ## The callbacks of a join -/

/-- `w'` is `w` up to ring members, connections and events. -/
structure SameKeys (env : Env) (w w' : Wired) : Prop where
  nodeID : w'.server.nodeID = w.server.nodeID
  store : w'.server.store = w.server.store
  manager : w'.server.replicationMgr.map (fun rm => (rm.selfID, rm.replicaCount)) =
    w.server.replicationMgr.map fun rm => (rm.selfID, rm.replicaCount)
  sends : w'.sends = w.sends
  built : ∀ vnodeCount, Built env.sort vnodeCount w.server.ring →
    Built env.sort vnodeCount w'.server.ring

namespace SameKeys

variable {w w' w'' : Wired} {env : Env} {x : NodeID}

theorem refl (w : Wired) : SameKeys env w w := ⟨rfl, rfl, rfl, rfl, fun _ => id⟩

theorem trans (h : SameKeys env w w') (h' : SameKeys env w' w'') : SameKeys env w w'' where
  nodeID := h'.nodeID.trans h.nodeID
  store := h'.store.trans h.store
  manager := h'.manager.trans h.manager
  sends := h'.sends.trans h.sends
  built V hb := h'.built V (h.built V hb)

theorem connect (w : Wired) (addr : GoString) : SameKeys env w (w.connect env x addr) := by
  unfold Wired.connect Wired.withManager
  rcases hrm : w.server.replicationMgr with _ | rm
  · exact refl w
  · have hrm' : ((rm.connectToPeer env.dial x addr).selfID,
        (rm.connectToPeer env.dial x addr).replicaCount) = (rm.selfID, rm.replicaCount) := by
      simp only [ReplicationManager.connectToPeer]
      split_ifs <;> rfl
    exact ⟨rfl, rfl, by simp only [hrm, Option.map_some, hrm'], List.append_nil _, fun _ => id⟩

theorem addNode (w : Wired) : SameKeys env w (w.addNode env x) := by
  have hring : SameKeys env w { w with server := { w.server with
      ring := (w.server.ring.addNode env.sort x).1 } } := by
    refine ⟨rfl, rfl, rfl, rfl, ?_⟩
    rintro V ⟨maxLoadFactor, ops, hr⟩
    exact ⟨maxLoadFactor, ops ++ [.addNode x], by rw [run_append, ← hr]; rfl⟩
  unfold Wired.addNode
  dsimp only
  split_ifs
  · refine hring.trans ?_
    unfold Wired.onNodeAdded
    split
    · exact refl _
    · split_ifs
      · exact connect _ _
      · exact refl _
  · exact hring

theorem onEvent {N : Finset NodeID} {event : MembershipEvent} (hev : event.Adds N) (w : Wired)
    (ord : RangeOrder Key Entry) (now : Time) : SameKeys env w (w.onEvent env ord now event) := by
  obtain ⟨-, htype⟩ := hev
  have hadd : ∀ addr, SameKeys env w
      (if event.nodeID ≠ (w.addNode env event.nodeID).server.nodeID then
        (w.addNode env event.nodeID).connect env event.nodeID addr
      else w.addNode env event.nodeID) := by
    intro addr
    split_ifs
    · exact (addNode w).trans (connect _ _)
    · exact addNode w
  rcases htype with htype | htype
  all_goals
    simp only [Wired.onEvent, htype]
    split
    · exact refl w
    · exact hadd _

end SameKeys

/-- **A join moves no key**: after any run of join callbacks, the stores are as before and
    no message is on its way. -/
theorem join_sameKeys {env : NodeID → Env} {N M : Finset NodeID} {net : Net}
    (hidle : ∀ y ∈ M, (net y).sends = []) {acts : List Net.Act}
    (hacts : Along (Net.step env) (Net.Enabled M (MembershipEvent.Adds N)) net acts) (y : NodeID) :
    SameKeys (env y) (net y) (run (Net.step env) net acts y) := by
  refine Along.inv (I := fun net' : Net => ∀ y, SameKeys (env y) (net y) (net' y)) ?_ hacts
    (fun y => .refl _) y
  intro net' a h ha y
  cases a with
  | handle x event ord now =>
    simp only [Net.step, Net.handle]
    by_cases hy : y = x
    · subst hy
      rw [Function.update_self]
      exact (h y).trans (.onEvent ha.2 _ ord now)
    · rw [Function.update_of_ne hy]; exact h y
  | deliver x send arrival =>
    -- there is nothing to deliver
    obtain ⟨hx, hsend⟩ := ha
    rw [(h x).sends, hidle x hx] at hsend
    exact absurd hsend List.not_mem_nil

/-! ## Reads -/

namespace Cluster

/-- A `Get` for `k` that enters at node `y` is forwarded to node `z` and served there. -/
inductive ServedAt (c : Cluster) (k : Key) : NodeID → NodeID → Prop where
  | here {y : NodeID} (h : (c y).forwardTarget (Request.get ⟨k⟩).serves k = none) :
      ServedAt c k y y
  | forward {y p z : NodeID} (h : (c y).forwardTarget (Request.get ⟨k⟩).serves k = some p)
      (hp : ServedAt c k p z) : ServedAt c k y z

/-- Every `Get` for `k` that enters at node `y` is answered, and finds `v`. -/
def Reads (c : Cluster) (y : NodeID) (k : Key) (v : Value) : Prop :=
  ∃ n, ∀ (call : Call) (fuel : ℕ), call.node = y → call.req = .get ⟨k⟩ → n ≤ fuel →
    (c.request fuel call).map (fun r => r.1.answer) = some (.get true v)

variable {c : Cluster} {k : Key} {v : Value} {y z : NodeID}

/-- The forwarding chain of a request that is served ends at the node that serves it. -/
theorem ServedAt.chain (h : c.ServedAt k y z) : ∃ n, ∀ fuel, n ≤ fuel → ∀ (now : ℕ → Time) (i : ℕ),
    ∃ before, hops (fun _ => c) now (fun _ => true) (.get ⟨k⟩) fuel i y =
      before ++ [(z, ((c z).serve (now (i + before.length)) (.get ⟨k⟩)).1)] := by
  induction h with
  | here h =>
    refine ⟨1, fun fuel hfuel now i => ⟨[], ?_⟩⟩
    obtain ⟨fuel, rfl⟩ : ∃ m, fuel = m + 1 := ⟨fuel - 1, by omega⟩
    exact hops_serve h now _ fuel
  | @forward y p z h _ ih =>
    obtain ⟨n, hn⟩ := ih
    refine ⟨n + 1, fun fuel hfuel now i => ?_⟩
    obtain ⟨fuel, rfl⟩ : ∃ m, fuel = m + 1 := ⟨fuel - 1, by omega⟩
    obtain ⟨before, hb⟩ := hn fuel (by omega) now (i + 1)
    refine ⟨(y, .proxy p) :: before, (hops_forward h now _ fuel).trans ?_⟩
    rw [if_pos rfl, hb, List.length_cons, List.cons_append, add_comm before.length 1, add_assoc i 1]

/-- A request that is answered is served somewhere. -/
theorem servedAt_of_chain {now : ℕ → Time} {resp : Response} {sends : List Send} {fuel i : ℕ}
    (h : (hops (fun _ => c) now (fun _ => true) (.get ⟨k⟩) fuel i y).getLast? =
      some (z, .reply resp sends)) : c.ServedAt k y z := by
  induction fuel generalizing i y with
  | zero => simp [hops] at h
  | succ fuel ih =>
    rcases hf : (c y).forwardTarget (Request.get ⟨k⟩).serves k with _ | p
    · have hchain : hops (fun _ => c) now (fun _ => true) (.get ⟨k⟩) (fuel + 1) i y =
          [(y, ((c y).serve (now i) (.get ⟨k⟩)).1)] := hops_serve hf now _ fuel
      rw [hchain] at h
      obtain ⟨rfl, -⟩ : y = z ∧ _ := by simpa using h
      exact .here hf
    · have hchain : hops (fun _ => c) now (fun _ => true) (.get ⟨k⟩) (fuel + 1) i y =
          (y, .proxy p) :: hops (fun _ => c) now (fun _ => true) (.get ⟨k⟩) fuel (i + 1) p :=
        hops_forward hf now _ fuel
      rw [hchain] at h
      rcases hl : hops (fun _ => c) now (fun _ => true) (.get ⟨k⟩) fuel (i + 1) p with _ | ⟨a, l⟩
      · simp [hl] at h
      · rw [hl, List.getLast?_cons_cons, ← hl] at h
        exact .forward hf (ih h)

/-- The answer to a read comes from the store of the node that serves it. -/
theorem ServedAt.answer (h : c.ServedAt k y z) (v : Value) :
    ∃ n, ∀ (call : Call) (fuel : ℕ), call.node = y → call.req = .get ⟨k⟩ → n ≤ fuel →
      ∃ i, (c.request fuel call).map (fun r => r.1.answer) = some (.get true v) ↔
        ((c z).store.get (call.now i) k).1 = some v := by
  obtain ⟨n, hn⟩ := h.chain
  refine ⟨n, ?_⟩
  rintro ⟨node, req, now, schedule, arrival⟩ fuel rfl rfl hfuel
  obtain ⟨before, hb⟩ := hn fuel hfuel now 0
  rw [zero_add] at hb
  refine ⟨before.length, ?_⟩
  obtain ⟨isHot, hr⟩ := (c z).serveGet_fst (now before.length) k
  have hserve : ((c z).serve (now before.length) (.get ⟨k⟩)).1 = _ := hr
  simp only [request, hb, hserve, List.getLast?_append, List.getLast?_singleton, Option.some_or,
    Option.map_some, Response.answer, Option.some.injEq, Answer.get.injEq]
  rcases ((c z).store.get (now before.length) k).1 with _ | value <;> simp

/-- **Reads find a value** exactly if they end at a node that holds it. -/
theorem reads_iff : c.Reads y k v ↔
    ∃ z, c.ServedAt k y z ∧ (c z).store.entry k = some (Store.persistent v) := by
  constructor
  · rintro ⟨n, hn⟩
    let call (t : Time) : Call := ⟨y, .get ⟨k⟩, fun _ => t, ⟨id, .refl⟩, fun _ => 0⟩
    obtain ⟨z, hz⟩ : ∃ z, c.ServedAt k y z := by
      have h := hn (call 0) n rfl rfl le_rfl
      simp only [request] at h
      split at h
      · rename_i z resp sends hl
        exact ⟨z, servedAt_of_chain hl⟩
      · simp at h
    refine ⟨z, hz, (Store.get_eq_always_iff _ _).1 fun t => ?_⟩
    obtain ⟨m, hm⟩ := hz.answer v
    obtain ⟨i, hi⟩ := hm (call t) (max n m) rfl rfl (le_max_right n m)
    exact hi.1 (hn (call t) _ rfl rfl (le_max_left n m))
  · rintro ⟨z, hz, he⟩
    obtain ⟨n, hn⟩ := hz.answer v
    refine ⟨n, fun call fuel hnode hreq hfuel => ?_⟩
    obtain ⟨i, hi⟩ := hn call fuel hnode hreq hfuel
    exact hi.2 ((Store.get_eq_always_iff _ _).2 he _)

end Cluster

/-- In a fixed cluster, a read is served by a replica. -/
theorem Fixed.servedAt {N : Finset NodeID} {vnodeCount : ℤ} {R : ℕ} {c : Cluster} {y : NodeID}
    (h : Fixed N vnodeCount R c) (hy : y ∈ N) (k : Key) :
    ∃ z ∈ N, c.ServedAt k y z ∧ z ∈ (c z).ring.getNodes k R := by
  have hreplica : ∀ z ∈ N, (c z).forwardTarget (Request.get ⟨k⟩).serves k = none →
      z ∈ (c z).ring.getNodes k R := by
    intro z hz hf
    obtain ⟨rm, hrm, hs⟩ := h.serves_of_forwardTarget hz hf
    obtain ⟨rm', hrm', hself, hR, -⟩ := h.manager z hz
    obtain rfl : rm = rm' := Option.some.inj (hrm.symm.trans hrm')
    simpa [Request.serves, Request.key, ReplicationManager.isReplica, hself, hR] using hs
  rcases hf : (c y).forwardTarget (Request.get ⟨k⟩).serves k with _ | p
  · exact ⟨y, hy, .here hf, hreplica y hy hf⟩
  · obtain ⟨hp, hpf⟩ := h.forwardTarget_primary hy hf
    exact ⟨p, hp, .forward hf (.here hpf), hreplica p hp hpf⟩

/-- A replica serves a read itself. -/
theorem Fixed.servedAt_replica {N : Finset NodeID} {vnodeCount : ℤ} {R : ℕ} {c : Cluster}
    {y z : NodeID} {k : Key} (h : Fixed N vnodeCount R c) (hy : y ∈ N)
    (hr : y ∈ (c y).ring.getNodes k R) (hz : c.ServedAt k y z) : z = y := by
  obtain ⟨rm, hrm, hself, hR, -⟩ := h.manager y hy
  have hf : (c y).forwardTarget (Request.get ⟨k⟩).serves k = none := by
    simp [forwardTarget, hrm, Request.serves, ReplicationManager.isReplica, hself, hR, hr]
  cases hz with
  | here => rfl
  | forward hp => rw [hf] at hp; cases hp

/-! ## Joins -/

/-- The nodes of `N` with identical rings over `N` and replica count `R`, and a new node `x`
    with an empty store; no message is on its way. -/
structure BeforeJoin (env : NodeID → Env) (N : Finset NodeID) (vnodeCount : ℤ) (R : ℕ)
    (x : NodeID) (net : Net) : Prop where
  fresh : x ∉ N
  nodeID : ∀ y ∈ insert x N, (net y).server.nodeID = y
  built : ∀ y ∈ insert x N, Built (env y).sort vnodeCount (net y).server.ring
  nodes : ∀ y ∈ N, (net y).server.ring.nodes = N
  manager : ∀ y ∈ insert x N, ∃ rm, (net y).server.replicationMgr = some rm ∧ rm.selfID = y ∧
    rm.replicaCount = R
  idle : ∀ y ∈ insert x N, (net y).sends = []
  empty : ∀ k, (net x).server.store.entry k = none

theorem take_filter_ne {α : Type} [DecidableEq α] {x : α} {l : List α} {n : ℕ}
    (hx : x ∉ l.take n) : (l.filter fun y => y ≠ x).take n = l.take n := by
  induction l generalizing n with
  | nil => rfl
  | cons a l ih =>
    cases n with
    | zero => rfl
    | succ n =>
      rw [List.take_succ_cons, List.mem_cons, not_or] at hx
      rw [List.filter_cons_of_pos (by simpa using Ne.symm hx.1), List.take_succ_cons,
        List.take_succ_cons, ih hx.2]

section
variable {env : NodeID → Env} {N : Finset NodeID} {vnodeCount : ℤ} {R : ℕ} {x : NodeID}
  {net net' : Net}

/-- After the join, the nodes form a fixed cluster if they are connected. -/
theorem BeforeJoin.fixed (h : BeforeJoin env N vnodeCount R x net)
    (hsame : ∀ y, SameKeys (env y) (net y) (net' y))
    (hjoined : ∀ y ∈ insert x N, (net' y).server.ring.nodes = insert x N)
    (hN : NoCollision (vnodesPerNode vnodeCount) (insert x N))
    (hconn : ∀ y ∈ insert x N, ∀ rm, (net' y).server.replicationMgr = some rm →
      ∀ z ∈ insert x N, z ≠ y → z ∈ rm.peerConns) :
    Fixed (insert x N) vnodeCount R net'.servers where
  nodeID y hy := (hsame y).nodeID.trans (h.nodeID y hy)
  built y hy := ⟨_, (hsame y).built _ (h.built y hy)⟩
  nodes := hjoined
  manager y hy := by
    obtain ⟨rm, hrm, hself, hR⟩ := h.manager y hy
    have hm := (hsame y).manager
    rw [hrm, Option.map_some] at hm
    obtain ⟨rm', hrm', hm⟩ := Option.map_eq_some_iff.1 hm
    rw [Prod.mk.injEq] at hm
    exact ⟨rm', hrm', hm.1.trans hself, hm.2.trans hR, hconn y hy rm' hrm'⟩
  noCollision := hN

/-- The members without the new node are in the order they were in. -/
theorem BeforeJoin.order_filter (h : BeforeJoin env N vnodeCount R x net)
    (hfix : Fixed (insert x N) vnodeCount R net'.servers) {y z : NodeID} (hy : y ∈ N)
    (hz : z ∈ insert x N) (k : Key) :
    ((net'.servers z).ring.order k).filter (fun y => y ≠ x) = (net y).server.ring.order k := by
  have hb := h.built y (Finset.mem_insert_of_mem hy)
  obtain ⟨sz, hbz⟩ := hfix.built z hz
  have hx : x ∈ (net'.servers z).ring.nodes := by
    rw [hfix.nodes z hz]; exact Finset.mem_insert_self x N
  have hnodes : ((net'.servers z).ring.removeNode x).1.nodes = N := by
    rw [removeNode_nodes, hfix.nodes z hz, Finset.erase_insert h.fresh]
  rw [← (hfix.wf hz).order_removeNode hx]
  refine (removeNode_wf (hfix.wf hz) x).order_eq (built_wf hb) ?_ ?_ ?_ k
  · rw [removeNode_nodeVnodes, built_nodeVnodes hbz, built_nodeVnodes hb]
  · rw [hnodes, h.nodes y hy]
  · rw [removeNode_nodeVnodes, built_nodeVnodes hbz, hnodes]
    exact hfix.noCollision.mono (Finset.subset_insert x N)

/-- **When a join keeps the reads of a key.**  After the new node `x` has joined, every `Get`
    for the key finds its value exactly if each of them ends at a node that held the value
    before the join.  With all nodes connected and without hash collisions, this is
    so exactly if `x` is no replica of the key. -/
theorem join_keeps_reads_iff (h : BeforeJoin env N vnodeCount R x net) {k : Key} {v : Value}
    (hk : ∀ y ∈ N, ∀ z ∈ (net y).server.ring.getNodes k R,
      (net z).server.store.entry k = some (Store.persistent v)) (acts : List Net.Act)
    (hacts : Along (Net.step env) (Net.Enabled (insert x N) (MembershipEvent.Adds (insert x N)))
      net acts)
    (hjoined : ∀ y ∈ insert x N,
      (run (Net.step env) net acts y).server.ring.nodes = insert x N) :
    let c := (run (Net.step env) net acts).servers
    ((∀ y ∈ insert x N, c.Reads y k v) ↔ ∀ y ∈ insert x N, ∃ z, c.ServedAt k y z ∧
      (net z).server.store.entry k = some (Store.persistent v)) ∧
    (NoCollision (vnodesPerNode vnodeCount) (insert x N) →
      (∀ y ∈ insert x N, ∀ rm, (c y).replicationMgr = some rm →
        ∀ z ∈ insert x N, z ≠ y → z ∈ rm.peerConns) →
      ((∀ y ∈ insert x N, c.Reads y k v) ↔ x ∉ (c x).ring.getNodes k R)) := by
  intro c
  have hsame := join_sameKeys h.idle hacts
  have hreads : ∀ y, c.Reads y k v ↔ ∃ z, c.ServedAt k y z ∧
      (net z).server.store.entry k = some (Store.persistent v) := by
    intro y
    have hstore : ∀ z, (c z).store = (net z).server.store := fun z => (hsame z).store
    simp only [Cluster.reads_iff, hstore]
  refine ⟨forall₂_congr fun y _ => hreads y, ?_⟩
  intro hN hconn
  have hfix := h.fixed hsame hjoined hN hconn
  have hxN : x ∈ insert x N := Finset.mem_insert_self x N
  constructor
  · intro hall hx
    obtain ⟨z, hz, he⟩ := (hreads x).1 (hall x hxN)
    obtain rfl := hfix.servedAt_replica hxN hx hz
    rw [h.empty] at he
    cases he
  · intro hx y hy
    obtain ⟨z, hz, hs, hr⟩ := hfix.servedAt hy k
    refine (hreads y).2 ⟨z, hs, ?_⟩
    rw [hfix.getNodes_eq hz hxN] at hr
    have hzx : z ≠ x := fun he => hx (he ▸ hr)
    have hzN : z ∈ N := (Finset.mem_insert.1 hz).resolve_left hzx
    refine hk z hzN z ?_
    rw [(hfix.wf hxN).getNodes_eq] at hx hr
    rw [(built_wf (h.built z hz)).getNodes_eq, ← h.order_filter hfix hzN hxN, take_filter_ne hx]
    exact hr

end

/-- `a` and `b`, which hold `[1]`, and `c`, which joins. -/
def joinNet (replicaCount : ℤ) (x : NodeID) : Wired where
  m := [ascii ['a'], ascii ['b'], ascii ['c']].foldl
    (fun m y => m.setInfo y (.new y ⟨y, y, y⟩)) (.start x ⟨x, x, x⟩ none)
  server :=
    if x = ascii ['c'] then nodeWith .insertion 1 replicaCount x [x]
    else
      { nodeWith .insertion 1 replicaCount x [ascii ['a'], ascii ['b']] with
        store := (Store.newWithShards 1).set 0 [1] [7] 0 }
  sends := []

/-- The nodes learn of each other. -/
noncomputable def joinActs : List Net.Act :=
  [.handle (ascii ['a']) ⟨.join, ascii ['c']⟩ default 1,
    .handle (ascii ['c']) ⟨.join, ascii ['a']⟩ default 2,
    .handle (ascii ['b']) ⟨.join, ascii ['c']⟩ default 3,
    .handle (ascii ['c']) ⟨.join, ascii ['b']⟩ default 4]

/-- All of them dial and sort alike. -/
def joinEnv (_ : NodeID) : Env := ⟨.insertion, fun _ => true⟩

theorem mem_joinNodes {y : NodeID}
    (hy : y ∈ insert (ascii ['c']) ({ascii ['a'], ascii ['b']} : Finset NodeID)) :
    y = ascii ['c'] ∨ y = ascii ['a'] ∨ y = ascii ['b'] := by
  simpa using hy

theorem joinNet_beforeJoin (R : ℕ) (hR : 0 < R) :
    BeforeJoin joinEnv {ascii ['a'], ascii ['b']} 1 R (ascii ['c']) (joinNet R) where
  fresh := by decide
  nodeID y hy := by
    rcases mem_joinNodes hy with rfl | rfl | rfl <;> rfl
  built y hy := by
    rcases mem_joinNodes hy with rfl | rfl | rfl <;> exact ⟨0, _, rfl⟩
  nodes y hy := by
    have hab : abRing.nodes = {ascii ['a'], ascii ['b']} := by decide +kernel
    have : y = ascii ['a'] ∨ y = ascii ['b'] := by simpa using hy
    rcases this with rfl | rfl <;> exact hab
  manager y hy := by
    have hcount : (if (R : ℤ) < 1 then 3 else (R : ℤ).toNat) = R := by
      rw [if_neg (by omega), Int.toNat_natCast]
    rcases mem_joinNodes hy with rfl | rfl | rfl <;> exact ⟨_, rfl, rfl, hcount⟩
  idle _ _ := rfl
  empty k := Store.newWithShards_entry k 1

theorem joinActs_enabled (R : ℤ) : Along (Net.step joinEnv)
    (Net.Enabled {ascii ['c'], ascii ['a'], ascii ['b']}
      (MembershipEvent.Adds {ascii ['c'], ascii ['a'], ascii ['b']})) (joinNet R) joinActs :=
  ⟨⟨by decide, by decide, Or.inl rfl⟩, ⟨by decide, by decide, Or.inl rfl⟩,
    ⟨by decide, by decide, Or.inl rfl⟩, ⟨by decide, by decide, Or.inl rfl⟩, trivial⟩

/-- With one replica per key, `[1]` stays at `a`, and `c` reads it there. -/
theorem join_keeps_reads_first :
    (run (Net.step joinEnv) (joinNet 1) joinActs).servers.Reads (ascii ['c']) [1] [7] := by
  refine ((join_keeps_reads_iff (joinNet_beforeJoin 1 one_pos) ?_ joinActs (joinActs_enabled 1)
    ?_).2 ?_ ?_).2 ?_ (ascii ['c']) (by decide)
  · decide +kernel
  · decide +kernel
  · decide
  · decide +kernel
  · decide +kernel

/-- With two replicas per key, `c` becomes a replica of `[1]` and does not get it: a `Get` at
    `c` finds nothing. -/
theorem join_loses_key :
    BeforeJoin joinEnv {ascii ['a'], ascii ['b']} 1 2 (ascii ['c']) (joinNet 2) ∧
    (∀ y ∈ ({ascii ['a'], ascii ['b']} : Finset NodeID),
      ∀ z ∈ (joinNet 2 y).server.ring.getNodes [1] 2,
        (joinNet 2 z).server.store.entry [1] = some (Store.persistent [7])) ∧
    Along (Net.step joinEnv) (Net.Enabled {ascii ['c'], ascii ['a'], ascii ['b']}
      (MembershipEvent.Adds {ascii ['c'], ascii ['a'], ascii ['b']})) (joinNet 2) joinActs ∧
    (∀ y ∈ ({ascii ['c'], ascii ['a'], ascii ['b']} : Finset NodeID),
      (run (Net.step joinEnv) (joinNet 2) joinActs y).server.ring.nodes =
          {ascii ['c'], ascii ['a'], ascii ['b']} ∧
        (run (Net.step joinEnv) (joinNet 2) joinActs y).sends = []) ∧
    ((run (Net.step joinEnv) (joinNet 2) joinActs).servers.request 2
      ⟨ascii ['c'], .get ⟨[1]⟩, fun _ => 5, ⟨id, .refl⟩, fun _ => 6⟩).map (fun r => r.1.answer) =
        some (.get false []) :=
  ⟨joinNet_beforeJoin 2 two_pos, by decide +kernel, joinActs_enabled 2, by decide +kernel,
    by decide +kernel⟩

end DistCache
