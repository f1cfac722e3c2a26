/-
  Who owns a key, whatever the history of the ring.

  * the three structures of a ring stay in step over every history;
  * `WF.order_removeNode` / `WF.order_addNode`: a node that leaves is dropped from
    the clockwise order of every key, a node that joins is inserted into it;
  * without hash collisions, the order only depends on the members, and `GetNode`
    of an idle ring is the head of that order.
-/
import DistCache.Proof.Ring

namespace DistCache.Ring

open Lib

variable {S : SortSlice} {r r' : Ring} {key : Key} {x p : NodeID}

/-! ## The representation -/

/-- A vnode of a member is there once, and nothing else is. -/
theorem WF.count_vnodes (h : r.WF) (v : VNode) :
    r.vnodes.count v =
      if v.nodeID ∈ r.nodes ∧ v.index < r.nodeVnodes ∧ v.hash = hashVNode v.nodeID v.index then 1
      else 0 := by
  split_ifs with hv
  · exact List.count_eq_one_of_mem h.nodup ((h.mem_vnodes v).2 hv)
  · exact List.count_eq_zero_of_not_mem fun hm => hv ((h.mem_vnodes v).1 hm)

/-- A ring with a member has room for its vnodes. -/
theorem WF.removeCapacity_nonneg (h : r.WF) (hx : x ∈ r.nodes) : 0 ≤ r.removeCapacity := by
  have hsub : vnodesOf r.nodeVnodes x ⊆ r.vnodes := by
    intro v hv
    obtain ⟨rfl, h2⟩ := mem_vnodesOf.1 hv
    exact (h.mem_vnodes v).2 ⟨hx, h2⟩
  have hle := ((vnodesOf_nodup r.nodeVnodes x).subperm hsub).length_le
  have hlen : (vnodesOf r.nodeVnodes x).length = r.nodeVnodes := by simp [vnodesOf]
  simp only [removeCapacity]
  omega

/-- **The representation of a ring.**  After any history, the vnodes are sorted and are
    those of the members, once each, the load counters are those of the members, and
    the capacity that the removal of a member computes is not negative. -/
theorem representation (S : SortSlice) (vnodeCount : ℤ) (maxLoadFactor : ℚ) (ops : List Op) :
    let r := run (exec S) (new vnodeCount maxLoadFactor) ops
    (r.vnodes.Pairwise fun v w => v.hash ≤ w.hash) ∧
      (∀ v, r.vnodes.count v =
        if v.nodeID ∈ r.nodes ∧ v.index < r.nodeVnodes ∧ v.hash = hashVNode v.nodeID v.index then 1
        else 0) ∧
      (∀ id, id ∈ r.loads ↔ id ∈ r.nodes) ∧
      ∀ id ∈ r.nodes, 0 ≤ r.removeCapacity := by
  intro r
  have h : r.WF := built_wf ⟨maxLoadFactor, ops, rfl⟩
  exact ⟨h.sorted, h.count_vnodes, h.mem_loads, fun id hid => h.removeCapacity_nonneg hid⟩

/-! ## Leaving and joining -/

/-- Without the vnodes of `x`, `x` is dropped from the clockwise order. -/
theorem WF.order_filter (h : r.WF)
    (hv : r'.vnodes = r.vnodes.filter fun v => v.nodeID ≠ x) (key : Key) :
    r'.order key = (r.order key).filter fun y => y ≠ x := by
  have hrot := rotate_firstAt_filter VNode.hash (hashKey key) h.sorted fun v => v.nodeID ≠ x
  simp only [order, search_eq, hv, hrot, filter_distinct, List.filter_map]
  rfl

theorem removeNode_vnodes (hx : x ∈ r.nodes) :
    (r.removeNode x).1.vnodes = r.vnodes.filter fun v => v.nodeID ≠ x := by
  simp [removeNode, hx]

theorem removeNode_nodeVnodes (r : Ring) (x : NodeID) :
    (r.removeNode x).1.nodeVnodes = r.nodeVnodes :=
  exec_nodeVnodes (S := .insertion) (.removeNode x)

theorem addNode_nodeVnodes (S : SortSlice) (r : Ring) (x : NodeID) :
    (r.addNode S x).1.nodeVnodes = r.nodeVnodes := exec_nodeVnodes (.addNode x)

theorem WF.order_removeNode (h : r.WF) (hx : x ∈ r.nodes) (key : Key) :
    (r.removeNode x).1.order key = (r.order key).filter fun y => y ≠ x :=
  h.order_filter (removeNode_vnodes hx) key

theorem NoCollision.mono {V : ℕ} {N N' : Finset NodeID} (h : NoCollision V N) (hsub : N' ⊆ N) :
    NoCollision V N' := by
  intro x hx y hy
  exact h x (hsub hx) y (hsub hy)

/-- The clockwise order only depends on the members. -/
theorem WF.order_eq (h : r.WF) (h' : r'.WF) (hV : r.nodeVnodes = r'.nodeVnodes)
    (hn : r.nodes = r'.nodes) (hN : NoCollision r.nodeVnodes r.nodes) (key : Key) :
    r.order key = r'.order key := by
  simp only [order, search, h.vnodes_eq h' hV hn hN]

/-- A node that joins is inserted into the clockwise order: removing it again leads
    back to the same vnodes. -/
theorem WF.order_addNode (h : r.WF) (hx : x ∉ r.nodes)
    (hN : NoCollision r.nodeVnodes (insert x r.nodes)) (key : Key) :
    ((r.addNode S x).1.order key).filter (fun y => y ≠ x) = r.order key := by
  have h' : (r.addNode S x).1.WF := addNode_wf h x
  have hmem : x ∈ (r.addNode S x).1.nodes := by
    rw [addNode_nodes]; exact Finset.mem_insert_self x r.nodes
  have hnodes : ((r.addNode S x).1.removeNode x).1.nodes = r.nodes := by
    rw [removeNode_nodes, addNode_nodes, Finset.erase_insert hx]
  have hV : ((r.addNode S x).1.removeNode x).1.nodeVnodes = r.nodeVnodes := by
    rw [removeNode_nodeVnodes, addNode_nodeVnodes]
  rw [← h'.order_removeNode hmem]
  refine (removeNode_wf h' x).order_eq h hV hnodes ?_ key
  rw [hV, hnodes]
  exact hN.mono (Finset.subset_insert x r.nodes)

/-- The full clockwise list. -/
theorem WF.getNodes_size (h : r.WF) (key : Key) : r.getNodes key r.size = r.order key := by
  rw [h.getNodes_eq, size, ← h.length_order key, List.take_length]

/-- The primary is the head of the clockwise order. -/
theorem WF.getNodes_one (h : r.WF) : r.getNodes key 1 = [p] ↔ (r.order key).head? = some p := by
  rw [h.getNodes_eq]
  cases r.order key <;> simp

/-- Built rings over the same members are ordered alike. -/
theorem order_eq_of_nodes {vnodeCount : ℤ} {N : Finset NodeID} (hb : ∃ sort, Built sort vnodeCount r)
    (hb' : ∃ sort, Built sort vnodeCount r') (hn : r.nodes = N) (hn' : r'.nodes = N)
    (hN : NoCollision (vnodesPerNode vnodeCount) N) (key : Key) : r.order key = r'.order key := by
  obtain ⟨sort, hb⟩ := hb
  obtain ⟨sort', hb'⟩ := hb'
  refine (built_wf hb).order_eq (built_wf hb') ?_ (hn.trans hn'.symm) ?_ key
  · rw [built_nodeVnodes hb, built_nodeVnodes hb']
  · rw [built_nodeVnodes hb, hn]
    exact hN

/-- **Minimal disruption.**  After a node leaves, `GetNodes` is the prefix of the old full
    list without it; after a node joins, the new full list without it is the old one, so
    that a primary changes to the new node only. -/
theorem minimal_disruption (vnodeCount : ℤ) (hb : Built S vnodeCount r) (x : NodeID) (key : Key) :
    (x ∈ r.nodes → ∀ n, (r.removeNode x).1.getNodes key n =
      ((r.getNodes key r.size).filter fun y => y ≠ x).take n) ∧
    (x ∉ r.nodes → ∀ S' : SortSlice, NoCollision r.nodeVnodes (insert x r.nodes) →
      let r' := (r.addNode S' x).1
      (r'.getNodes key r'.size).filter (fun y => y ≠ x) = r.getNodes key r.size ∧
        ∀ p, r'.getNodes key 1 = [p] → p = x ∨ r.getNodes key 1 = [p]) := by
  have h := built_wf hb
  constructor
  · intro hx n
    rw [(removeNode_wf h x).getNodes_eq, h.getNodes_size, h.order_removeNode hx]
  · intro hx S' hN r'
    have h' : r'.WF := addNode_wf h x
    have horder := h.order_addNode (S := S') hx hN key
    refine ⟨by rw [h'.getNodes_size, h.getNodes_size]; exact horder, fun p hp => ?_⟩
    rw [h'.getNodes_one] at hp
    rw [h.getNodes_one, ← horder]
    obtain ⟨l, hl⟩ : ∃ l, r'.order key = p :: l := by
      cases ho : r'.order key with
      | nil => simp [ho] at hp
      | cons q l => simp [ho] at hp; exact ⟨l, by rw [hp]⟩
    by_cases hpx : p = x
    · exact Or.inl hpx
    · right
      change ((r'.order key).filter _).head? = _
      rw [hl]
      simp [hpx]

/-- A ring of the nodes `a` and `b`, with one vnode each. -/
def abRing : Ring := run (exec .insertion) (new 1 0) [.addNode (ascii ['a']), .addNode (ascii ['b'])]

theorem abRing_built : Built .insertion 1 abRing := ⟨0, _, rfl⟩

/-- `a` leaves, or `c` joins. -/
theorem minimal_disruption_ab :
    (abRing.removeNode (ascii ['a'])).1.getNodes [1] 2 =
      ((abRing.getNodes [1] abRing.size).filter fun y => y ≠ ascii ['a']).take 2 ∧
    (((abRing.addNode .insertion (ascii ['c'])).1.getNodes [1] 3).filter fun y => y ≠ ascii ['c']) =
      abRing.getNodes [1] abRing.size := by
  constructor
  · exact (minimal_disruption 1 abRing_built (ascii ['a']) [1]).1 (by decide) 2
  · exact ((minimal_disruption 1 abRing_built (ascii ['c']) [1]).2 (by decide) .insertion
      (by decide)).1

/-! ## `GetNode` -/

theorem one_le_maxLoad (r : Ring) : 1 ≤ r.maxLoad := by
  simp only [maxLoad]
  split_ifs <;> omega

theorem getNodeLoop_eq (h : r.WF) (m : ℤ) : ∀ {vs : List VNode}, (∀ v ∈ vs, v.nodeID ∈ r.nodes) →
    r.getNodeLoop m vs = (vs.map VNode.nodeID).find? fun id => r.load id < m
  | [], _ => rfl
  | v :: vs, hvs => by
    have hload : v.nodeID ∈ r.loads := (h.mem_loads _).2 (hvs v List.mem_cons_self)
    obtain ⟨load, hl⟩ := Option.isSome_iff_exists.1 (Finmap.lookup_isSome.2 hload)
    have ih := getNodeLoop_eq h m fun w hw => hvs w (List.mem_cons_of_mem v hw)
    have hv : r.load v.nodeID = load := by simp [Ring.load, hl]
    simp only [getNodeLoop, hl, ih, List.map_cons, List.find?_cons, hv]
    by_cases hlt : load < m <;> simp [hlt]

/-- **`GetNode` is the first node of the clockwise order that is not overloaded**, and
    the primary if all of them are. -/
theorem WF.getNode_eq (h : r.WF) (key : Key) :
    r.getNode key =
      ((r.order key).find? fun id => r.load id < r.maxLoad).or (r.order key).head? := by
  by_cases h0 : r.vnodes = []
  · simp [getNode, order, h0, distinct]
  · have hpos : 0 < r.vnodes.length := List.length_pos_iff.2 h0
    have hidx : r.search (hashKey key) < r.vnodes.length := by
      simp only [search]
      split_ifs <;> omega
    have hmem : ∀ v ∈ r.walk (r.search (hashKey key)), v.nodeID ∈ r.nodes := by
      intro v hv
      rw [walk_eq, List.mem_rotate] at hv
      exact ((h.mem_vnodes v).1 hv).1
    have hhead : (r.order key).head? = r.vnodes[r.search (hashKey key)]?.map VNode.nodeID := by
      rw [order, head?_distinct_empty, List.head?_map, List.head?_rotate hidx]
    have hfind : r.getNodeLoop r.maxLoad (r.walk (r.search (hashKey key))) =
        (r.order key).find? fun id => r.load id < r.maxLoad := by
      rw [getNodeLoop_eq h _ hmem, walk_eq, order, find?_distinct _ _ _ (by simp)]
    simp only [getNode, hfind, hhead, Nat.ne_of_gt hpos, if_false]
    cases (r.order key).find? fun id => r.load id < r.maxLoad <;> rfl

/-- On an idle ring, `GetNode` is the primary. -/
theorem WF.getNode_idle (h : r.WF) (hne : r.nodes.Nonempty) (h0 : ∀ id ∈ r.nodes, r.load id = 0)
    (key : Key) : ∃ p, r.getNodes key 1 = [p] ∧ r.getNode key = some p := by
  obtain ⟨x, hx⟩ := hne
  obtain ⟨p, l, hl⟩ := List.exists_cons_of_ne_nil (h.order_ne_nil hx key)
  have hp : p ∈ r.nodes := h.mem_order.1 (hl ▸ List.mem_cons_self)
  have hlt : r.load p < r.maxLoad := by
    have := r.one_le_maxLoad
    rw [h0 p hp]
    omega
  refine ⟨p, h.getNodes_one.2 (by rw [hl]; rfl), ?_⟩
  rw [h.getNode_eq, hl, List.find?_cons_of_pos (by simpa using hlt)]
  rfl

/-- **Ownership does not depend on history.**  Rings with the same number of vnodes per
    node and the same members give the same lists, whatever led to them, if no two
    vnodes share a hash; and `GetNode` of an idle ring is the primary. -/
theorem ownership_of_members (S S' : SortSlice) :
    (∀ (vnodeCount vnodeCount' : ℤ) (r r' : Ring), Built S vnodeCount r →
      Built S' vnodeCount' r' → r.nodeVnodes = r'.nodeVnodes → r.nodes = r'.nodes →
      NoCollision r.nodeVnodes r.nodes → ∀ key n, r.getNodes key n = r'.getNodes key n) ∧
    (∀ (vnodeCount : ℤ) (r : Ring), Built S vnodeCount r → r.nodes.Nonempty →
      (∀ id ∈ r.nodes, r.load id = 0) →
      ∀ key, ∃ p, r.getNodes key 1 = [p] ∧ r.getNode key = some p) := by
  constructor
  · intro vnodeCount vnodeCount' r r' hb hb' hV hn hN key n
    have h := built_wf hb
    have h' := built_wf hb'
    rw [h.getNodes_eq, h'.getNodes_eq, h.order_eq h' hV hn hN]
  · intro vnodeCount r hb hne h0 key
    exact (built_wf hb).getNode_idle hne h0 key

/-- A ring that `c` has joined and left, and that `a` joined last. -/
theorem ownership_of_members_ab :
    (abRing.getNodes [1] 2 =
      (run (exec .insertion) (new 1 1) [.addNode (ascii ['b']), .addNode (ascii ['c']),
        .removeNode (ascii ['c']), .addNode (ascii ['a'])]).getNodes [1] 2) ∧
    ∃ p, abRing.getNodes [1] 1 = [p] ∧ abRing.getNode [1] = some p := by
  constructor
  · exact (ownership_of_members .insertion .insertion).1 1 1 _ _ abRing_built ⟨1, _, rfl⟩ rfl
      (by decide) (by decide) [1] 2
  · exact (ownership_of_members .insertion .insertion).2 1 _ abRing_built
      ⟨ascii ['a'], by decide⟩ (by decide) [1]

end DistCache.Ring
