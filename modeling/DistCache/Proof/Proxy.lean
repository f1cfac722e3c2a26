/-
  Forwarding chains end, whatever the nodes believe about the membership.

  All rings place a node at the same hash positions, so the clockwise distance
  `reach` from a key to a node does not depend on the view it is computed in.
  A node only forwards to a member of its own view that is closer to the key
  than itself (`forward_reach`): along a chain the distance decreases.  A node
  that forwards is as before, and the one that ends the chain applies the request
  to its own store (`Applies`).
-/
import DistCache.Cluster
import DistCache.Proof.Server
import DistCache.Proof.TtlMap

namespace DistCache

open DistCache.Ring

/-! ## Requests on the local store -/

/-- The entry that a request leaves for its key, where there was `e`. -/
def Request.leaves (now : Time) (e : Option Entry) : Request → Option Entry
  | .get _ => alive now e
  | .set req => some ⟨req.value, Store.expiryOf now (ttlOfMs req.ttlMs)⟩
  | .delete _ => none
  | .expire req => e.map fun e =>
    if e.isExpired now then e else { e with expiresAt := Store.expiryOf now (ttlOfMs req.ttlMs) }

/-- The answers to a request, where there was the entry `e` for its key. -/
def Request.Answers (now : Time) (e : Option Entry) : Request → Response → Prop
  | .get req, .get resp => resp.key = req.key ∧ resp.found = (alive now e).isSome ∧
      resp.value = ((alive now e).map Entry.value).getD []
  | .set _, .set resp => resp.success = true
  | .delete _, .delete resp => resp.existed = e.isSome
  | .expire _, .expire resp => resp.found = (alive now e).isSome
  | _, _ => False

namespace CacheServer

variable (cs : CacheServer) (now : Time)

/-- The node passes the request on, and is as before. -/
def Forwards (req : Request) : Prop := ∃ p, cs.handle now req = (.proxy p, cs)

/-- The node applies the request to its own store: it answers from the entry that it has for the
    key, and leaves what the request asks for.  Of the other entries only the shard copies of the
    key may change. -/
structure Applies (req : Request) : Prop where
  answer : ∃ resp sends, (cs.handle now req).1 = .reply resp sends ∧
    req.Answers now (cs.store.entry req.key) resp
  entry : (cs.handle now req).2.store.entry req.key = req.leaves now (cs.store.entry req.key)
  others : ∀ k ≠ req.key, Spares req.key k →
    (cs.handle now req).2.store.entry k = cs.store.entry k

/-- **A request that is served is applied to the local store.** -/
theorem serve_applies {req : Request} (h : cs.forwardTarget req.serves req.key = none) :
    cs.Applies now req := by
  have hhandle := cs.handle_serve now req h
  have hself : ∀ {key : Key}, Spares key key := fun {key} => spares_self key
  cases req with
  | get req =>
    obtain ⟨isHot, hresp⟩ := cs.serveGet_fst now req.key
    have hfst : (cs.store.get now req.key).1 =
        (alive now (cs.store.entry req.key)).map Entry.value := cs.store.get_fst now req.key
    refine ⟨⟨_, _, (congrArg Prod.fst hhandle).trans hresp, rfl, ?_, ?_⟩, ?_, fun k hne hk => ?_⟩
    · exact (congrArg Option.isSome hfst).trans Option.isSome_map
    · exact congrArg (Option.getD · []) hfst
    · rw [hhandle]
      exact (cs.entry_serveGet now hself).trans ((cs.store.entry_get now _ _).trans (if_pos rfl))
    · rw [hhandle]
      exact (cs.entry_serveGet now hk).trans ((cs.store.entry_get now _ _).trans (if_neg hne))
  | set req =>
    refine ⟨⟨_, _, congrArg Prod.fst hhandle, rfl⟩, ?_, fun k hne hk => ?_⟩
    · rw [hhandle]
      exact (cs.entry_serve_set now hself req.value req.ttlMs).trans (if_pos rfl)
    · rw [hhandle]
      exact (cs.entry_serve_set now hk req.value req.ttlMs).trans (if_neg hne)
  | delete req =>
    refine ⟨⟨_, _, congrArg Prod.fst hhandle, cs.store.delete_fst req.key⟩, ?_, fun k hne _ => ?_⟩
    · rw [hhandle]
      exact (cs.entry_serve_delete now req.key req.key).trans (if_pos rfl)
    · rw [hhandle]
      exact (cs.entry_serve_delete now req.key k).trans (if_neg hne)
  | expire req =>
    have hentry := fun k => (cs.entry_serveExpire now req k).trans
      (cs.store.entry_expire now req.key k (ttlOfMs req.ttlMs))
    have hfst := cs.store.expire_fst now req.key (ttlOfMs req.ttlMs)
    refine ⟨?_, ?_, fun k hne _ => ?_⟩
    · rw [hhandle]
      show ∃ resp sends, (cs.serveExpire now req).1 = _ ∧ _
      unfold serveExpire
      rcases hexp : cs.store.expire now req.key (ttlOfMs req.ttlMs) with ⟨_ | _, store⟩
      · rw [hexp] at hfst
        exact ⟨_, _, rfl, hfst⟩
      · rw [hexp] at hfst
        exact ⟨_, _, rfl, hfst⟩
    · rw [hhandle]
      exact (hentry req.key).trans (if_pos rfl)
    · rw [hhandle]
      exact (hentry k).trans (if_neg hne)

end CacheServer

/-- The nodes of `S` have rings of the same virtual-node count over members of `S`,
    each containing the node itself; they may differ from node to node and from
    hop to hop. -/
structure Views (S : Finset NodeID) (vnodeCount : ℤ) (servers : ℕ → NodeID → CacheServer) :
    Prop where
  nodeID : ∀ i, ∀ x ∈ S, (servers i x).nodeID = x
  built : ∀ i, ∀ x ∈ S, ∃ sort, Built sort vnodeCount (servers i x).ring
  self : ∀ i, ∀ x ∈ S, x ∈ (servers i x).ring.nodes
  members : ∀ i, ∀ x ∈ S, (servers i x).ring.nodes ⊆ S

section
variable {S : Finset NodeID} {vnodeCount : ℤ} {servers : ℕ → NodeID → CacheServer}
  {now : ℕ → Time} {delivers : ℕ → Bool} {req : Request}

/-- The clockwise distance from the key of the request to a node. -/
noncomputable abbrev dist (vnodeCount : ℤ) (req : Request) (x : NodeID) : ℕ :=
  reach (vnodesPerNode vnodeCount) (hashKey req.key) x

theorem handle_eq_proxy {cs : CacheServer} {t : Time} {p : NodeID}
    (h : (cs.handle t req).1 = .proxy p) :
    (cs.ring.getNodes req.key 1).head? = some p ∧ p ≠ cs.nodeID := by
  cases hf : cs.forwardTarget req.serves req.key with
  | none =>
    rw [cs.handle_serve t req hf] at h
    exact absurd h (cs.serve_ne_proxy t req p)
  | some q =>
    rw [cs.handle_proxy t req hf] at h
    cases h
    obtain ⟨rm, -, -, h1, h2, -⟩ := cs.forwardTarget_eq_some hf
    exact ⟨h1, h2⟩

/-- A chain ends at a node that does not forward. -/
theorem hops_serve {i : ℕ} {y : NodeID}
    (hy : (servers i y).forwardTarget req.serves req.key = none) (now : ℕ → Time)
    (delivers : ℕ → Bool) (fuel : ℕ) :
    hops servers now delivers req (fuel + 1) i y = [(y, ((servers i y).serve (now i) req).1)] := by
  unfold hops
  rw [(servers i y).handle_serve _ _ hy]
  split
  · rename_i p hp
    exact absurd hp ((servers i y).serve_ne_proxy _ _ p)
  · rename_i hp
    rw [hp]

/-- A node that forwards passes the chain on to the primary, if the RPC succeeds. -/
theorem hops_forward {i : ℕ} {x p : NodeID}
    (hx : (servers i x).forwardTarget req.serves req.key = some p) (now : ℕ → Time)
    (delivers : ℕ → Bool) (fuel : ℕ) :
    hops servers now delivers req (fuel + 1) i x =
      (x, .proxy p) :: if delivers i then hops servers now delivers req fuel (i + 1) p else [] := by
  rw [hops, (servers i x).handle_proxy _ _ hx]

variable (hv : Views S vnodeCount servers) (hN : NoCollision (vnodesPerNode vnodeCount) S)
include hv hN

/-- **A request is forwarded to a node closer to its key.** -/
theorem forward_reach {i : ℕ} {x p : NodeID} (hx : x ∈ S) {t : Time}
    (h : ((servers i x).handle t req).1 = .proxy p) :
    p ∈ S ∧ dist vnodeCount req p < dist vnodeCount req x := by
  obtain ⟨hp, hne⟩ := handle_eq_proxy h
  obtain ⟨sort, hb⟩ := hv.built i x hx
  have hwf := built_wf hb
  have hV := built_nodeVnodes hb
  rw [hwf.getNodes_eq, List.head?_take, if_neg one_ne_zero] at hp
  rw [hv.nodeID i x hx] at hne
  refine ⟨hv.members i x hx (hwf.mem_order.1 (List.mem_of_mem_head? hp)), ?_⟩
  have := hwf.reach_primary (hV ▸ hN) (hv.members i x hx) hp (hv.self i x hx) hne
  rwa [hV] at this

variable (now delivers req) in
/-- A hop either goes on to a closer node, or ends the chain by applying the request. -/
theorem hops_cases {x : NodeID} (hx : x ∈ S) (i : ℕ) :
    (∃ p ∈ S, dist vnodeCount req p < dist vnodeCount req x ∧ (servers i x).Forwards (now i) req ∧
      ∀ fuel, hops servers now delivers req (fuel + 1) i x =
        (x, .proxy p) :: if delivers i then hops servers now delivers req fuel (i + 1) p else []) ∨
    (servers i x).Applies (now i) req ∧
      ∃ r : Handled, ∀ fuel, hops servers now delivers req (fuel + 1) i x = [(x, r)] := by
  cases hf : (servers i x).forwardTarget req.serves req.key with
  | some p =>
    have hproxy := (servers i x).handle_proxy (now i) req hf
    obtain ⟨hp, hlt⟩ := forward_reach hv hN hx (congrArg Prod.fst hproxy)
    exact Or.inl ⟨p, hp, hlt, ⟨p, hproxy⟩, hops_forward hf now delivers⟩
  | none =>
    exact Or.inr ⟨(servers i x).serve_applies (now i) hf, _, hops_serve hf now delivers⟩

/-- The nodes of a chain are in `S`, and none is further than the first. -/
theorem hops_mem {x : NodeID} (hx : x ∈ S) (fuel i : ℕ) :
    ∀ y ∈ (hops servers now delivers req fuel i x).map Prod.fst,
      y ∈ S ∧ dist vnodeCount req y ≤ dist vnodeCount req x := by
  induction fuel generalizing i x with
  | zero => simp [hops]
  | succ fuel ih =>
    intro y hy
    rcases hops_cases now delivers req hv hN hx i with ⟨p, hpS, hlt, -, hhop⟩ | ⟨-, r, hend⟩
    · rw [hhop] at hy
      simp only [List.map_cons, List.mem_cons] at hy
      rcases hy with rfl | hy
      · exact ⟨hx, le_rfl⟩
      · split_ifs at hy
        · obtain ⟨h1, h2⟩ := ih hpS (i + 1) y hy
          exact ⟨h1, h2.trans hlt.le⟩
        · exact absurd hy List.not_mem_nil
    · rw [hend] at hy
      simp only [List.map_cons, List.map_nil, List.mem_singleton] at hy
      subst hy
      exact ⟨hx, le_rfl⟩

/-- Along a chain the distance to the key decreases. -/
theorem hops_pairwise {x : NodeID} (hx : x ∈ S) (fuel i : ℕ) :
    ((hops servers now delivers req fuel i x).map Prod.fst).Pairwise
      fun a b => dist vnodeCount req b < dist vnodeCount req a := by
  induction fuel generalizing i x with
  | zero => simp [hops]
  | succ fuel ih =>
    rcases hops_cases now delivers req hv hN hx i with ⟨p, hpS, hlt, -, hhop⟩ | ⟨-, r, hend⟩
    · rw [hhop]
      split_ifs
      · refine List.pairwise_cons.2 ⟨fun y hy => ?_, ih hpS (i + 1)⟩
        exact lt_of_le_of_lt (hops_mem hv hN hpS fuel (i + 1) y hy).2 hlt
      · exact List.pairwise_singleton _ _
    · rw [hend]
      exact List.pairwise_singleton _ _

end

/-! ## Enough fuel -/

/-- The number of nodes of `S` closer to the key than `x`. -/
noncomputable def rank (S : Finset NodeID) (vnodeCount : ℤ) (req : Request) (x : NodeID) : ℕ :=
  (S.filter fun y => dist vnodeCount req y < dist vnodeCount req x).card

theorem rank_lt_card {S : Finset NodeID} {vnodeCount : ℤ} {req : Request} {x : NodeID}
    (hx : x ∈ S) : rank S vnodeCount req x < S.card := by
  refine Finset.card_lt_card (Finset.filter_ssubset.2 ⟨x, hx, lt_irrefl _⟩)

theorem rank_lt_rank {S : Finset NodeID} {vnodeCount : ℤ} {req : Request} {x p : NodeID}
    (hp : p ∈ S) (h : dist vnodeCount req p < dist vnodeCount req x) :
    rank S vnodeCount req p < rank S vnodeCount req x := by
  refine Finset.card_lt_card (Finset.ssubset_iff_of_subset (fun y hy => ?_) |>.2 ⟨p, ?_, ?_⟩)
  · obtain ⟨h1, h2⟩ := Finset.mem_filter.1 hy
    exact Finset.mem_filter.2 ⟨h1, h2.trans h⟩
  · exact Finset.mem_filter.2 ⟨hp, h⟩
  · exact fun hm => lt_irrefl _ (Finset.mem_filter.1 hm).2

section
variable {S : Finset NodeID} {vnodeCount : ℤ} {servers : ℕ → NodeID → CacheServer}
  {now : ℕ → Time} {delivers : ℕ → Bool} {req : Request}
  (hv : Views S vnodeCount servers) (hN : NoCollision (vnodesPerNode vnodeCount) S)
include hv hN

theorem hops_fuel {x : NodeID} (hx : x ∈ S) {fuel fuel' : ℕ} (i : ℕ)
    (h : rank S vnodeCount req x < fuel) (h' : rank S vnodeCount req x < fuel') :
    hops servers now delivers req fuel i x = hops servers now delivers req fuel' i x := by
  induction fuel generalizing fuel' i x with
  | zero => omega
  | succ fuel ih =>
    obtain ⟨fuel', rfl⟩ : ∃ n, fuel' = n + 1 := ⟨fuel' - 1, by omega⟩
    rcases hops_cases now delivers req hv hN hx i with ⟨p, hpS, hlt, -, hhop⟩ | ⟨-, r, hend⟩
    · have hr := rank_lt_rank hpS hlt
      rw [hhop, hhop, ih hpS (i + 1) (by omega) (by omega : rank S vnodeCount req p < fuel')]
    · rw [hend, hend]

variable (now) in
/-- A chain with enough fuel whose RPCs succeed ends at the one node that applies
    the request. -/
theorem hops_applied (hd : ∀ i, delivers i = true) {x : NodeID} (hx : x ∈ S) {fuel : ℕ} (i : ℕ)
    (h : rank S vnodeCount req x < fuel) :
    ∃ before y, (hops servers now delivers req fuel i x).map Prod.fst = before ++ [y] ∧
      (∀ j z, before[j]? = some z → (servers (i + j) z).Forwards (now (i + j)) req) ∧
      (servers (i + before.length) y).Applies (now (i + before.length)) req := by
  induction fuel generalizing i x with
  | zero => omega
  | succ fuel ih =>
    rcases hops_cases now delivers req hv hN hx i with ⟨p, hpS, hlt, hfwd, hhop⟩ | ⟨happ, r, hend⟩
    · have hr := rank_lt_rank hpS hlt
      obtain ⟨before, y, hnodes, hbefore, hy⟩ := ih hpS (i + 1) (by omega)
      rw [Nat.add_right_comm, Nat.add_assoc] at hy
      refine ⟨x :: before, y, ?_, fun j z hz => ?_, hy⟩
      · rw [hhop, hd i, if_pos rfl, List.map_cons, hnodes, List.cons_append]
      · cases j with
        | zero =>
          obtain rfl : x = z := by simpa using hz
          exact hfwd
        | succ j =>
          have hj := hbefore j z (by simpa using hz)
          rwa [Nat.add_right_comm, Nat.add_assoc] at hj
    · exact ⟨[], x, by rw [hend]; rfl, fun j z hz => by simp at hz, happ⟩

end

/-- **Forwarding chains never loop.**  Whatever the views of the nodes of `S`, the
    nodes that handle a request are distinct nodes of `S`; `|S|` hops are enough to
    follow the chain to its end; and if no RPC fails, exactly one of the nodes, the last
    one, applies the request to its store, while the others are as before. -/
theorem hops_terminate (S : Finset NodeID) (vnodeCount : ℤ) (servers : ℕ → NodeID → CacheServer)
    (hv : Views S vnodeCount servers) (hN : NoCollision (vnodesPerNode vnodeCount) S)
    (now : ℕ → Time) (delivers : ℕ → Bool) (req : Request) (x : NodeID) (hx : x ∈ S) :
    (∀ fuel, ((hops servers now delivers req fuel 0 x).map Prod.fst).Nodup ∧
      ∀ y ∈ (hops servers now delivers req fuel 0 x).map Prod.fst, y ∈ S) ∧
    (∀ fuel ≥ S.card, hops servers now delivers req fuel 0 x =
      hops servers now delivers req S.card 0 x) ∧
    ((∀ i, delivers i = true) →
      ∃ before y, (hops servers now delivers req S.card 0 x).map Prod.fst = before ++ [y] ∧
        (∀ i z, before[i]? = some z → (servers i z).Forwards (now i) req) ∧
        (servers before.length y).Applies (now before.length) req) := by
  have hr : rank S vnodeCount req x < S.card := rank_lt_card hx
  refine ⟨fun fuel => ⟨?_, fun y hy => (hops_mem hv hN hx fuel 0 y hy).1⟩, fun fuel hf => ?_,
    fun hd => ?_⟩
  · exact (hops_pairwise hv hN hx fuel 0).imp fun hlt he => by rw [he] at hlt; exact lt_irrefl _ hlt
  · exact hops_fuel hv hN hx 0 (by omega) hr
  · have happ := hops_applied now hv hN hd hx 0 hr
    simpa only [Nat.zero_add] using happ

/-- Node `b` knows of `a`, but not the other way round. -/
def twoViews (x : NodeID) : CacheServer :=
  nodeWith .insertion 1 1 x (if x = ascii ['b'] then [ascii ['a'], ascii ['b']] else [x])

theorem twoViews_views : Views {ascii ['a'], ascii ['b']} 1 fun _ => twoViews where
  nodeID _ _ _ := rfl
  built _ _ _ := ⟨.insertion, 0, _, rfl⟩
  self _ := by decide +kernel
  members _ := by decide +kernel

/-- A write of the empty key entering at `b` is forwarded to `a`, which has it afterwards. -/
theorem hops_terminate_twoViews :
    (hops (fun _ => twoViews) (fun _ => 0) (fun _ => true) (.set ⟨[], [1], 0⟩) 2 0 (ascii ['b'])).map
        Prod.fst = [ascii ['b'], ascii ['a']] ∧
      (twoViews (ascii ['b'])).Forwards 0 (.set ⟨[], [1], 0⟩) ∧
      (twoViews (ascii ['a'])).Applies 0 (.set ⟨[], [1], 0⟩) ∧
      ((twoViews (ascii ['a'])).handle 0 (.set ⟨[], [1], 0⟩)).2.store.entry [] =
        some ⟨[1], none⟩ := by
  have hchain : (hops (fun _ => twoViews) (fun _ => 0) (fun _ => true) (.set ⟨[], [1], 0⟩) 2 0
      (ascii ['b'])).map Prod.fst = [ascii ['b'], ascii ['a']] := by decide +kernel
  obtain ⟨before, y, hnodes, hbefore, hy⟩ :=
    (hops_terminate {ascii ['a'], ascii ['b']} 1 (fun _ => twoViews) twoViews_views (by decide)
      (fun _ => 0) (fun _ => true) (.set ⟨[], [1], 0⟩) (ascii ['b']) (by decide)).2.2 fun _ => rfl
  have hsplit : [ascii ['b']] ++ [ascii ['a']] = before ++ [y] := hchain.symm.trans hnodes
  obtain ⟨rfl, he⟩ := List.append_inj' hsplit rfl
  obtain rfl : ascii ['a'] = y := List.singleton_inj.1 he
  exact ⟨hchain, hbefore 0 _ rfl, hy, hy.entry⟩

end DistCache
