/-
  The ring: its representation invariant, and `GetNodes` as a prefix of the
  clockwise order of the members.

  * `Ring.WF` holds of every ring built by a history of operations
    (`built_wf`): the vnodes are sorted, and are exactly those of the members;
  * `order r key` lists the members in the order in which their first vnode is
    met clockwise from the key; `getNodes_eq`: `GetNodes(key, n)` is its prefix
    of length `n`;
  * `reach V h x` is the clockwise distance from `h` to the first vnode of `x`;
    the primary of a key has the least one among the members (`reach_primary`);
  * `vnodes_eq`: without hash collisions, the vnodes only depend on the members.
-/
import DistCache.Ring

namespace DistCache

open Lib

namespace Ring

/-- The representation invariant of a ring. -/
structure WF (r : Ring) : Prop where
  sorted : r.vnodes.Pairwise fun v w => v.hash ≤ w.hash
  nodup : r.vnodes.Nodup
  mem_vnodes : ∀ v, v ∈ r.vnodes ↔
    v.nodeID ∈ r.nodes ∧ v.index < r.nodeVnodes ∧ v.hash = hashVNode v.nodeID v.index
  mem_loads : ∀ id, id ∈ r.loads ↔ id ∈ r.nodes
  pos : 0 < r.nodeVnodes

theorem new_wf (vnodeCount : ℤ) (eps : ℚ) : (new vnodeCount eps).WF where
  sorted := List.Pairwise.nil
  nodup := List.nodup_nil
  mem_vnodes v := by simp [new]
  mem_loads id := by simp [new, Finmap.notMem_empty]
  pos := by simp only [new]; split_ifs <;> omega

theorem mem_vnodesOf {count : ℕ} {id : NodeID} {v : VNode} :
    v ∈ vnodesOf count id ↔ v.nodeID = id ∧ v.index < count ∧ v.hash = hashVNode id v.index := by
  simp only [vnodesOf, List.mem_map, List.mem_range]
  constructor
  · rintro ⟨i, hi, rfl⟩; exact ⟨rfl, hi, rfl⟩
  · rintro ⟨h1, h2, h3⟩; obtain ⟨hash, id', i⟩ := v; exact ⟨i, h2, by simp_all⟩

theorem vnodesOf_nodup (count : ℕ) (id : NodeID) : (vnodesOf count id).Nodup := by
  refine List.nodup_range.map fun i j hij => ?_
  simp only [VNode.mk.injEq] at hij
  exact hij.2.2

section
variable {S : SortSlice} {r : Ring}

theorem addNode_wf (h : r.WF) (id : NodeID) : (r.addNode S id).1.WF := by
  unfold addNode
  split_ifs with hid
  · exact h
  · have hmem : ∀ v, v ∈ S.sort (r.vnodes ++ vnodesOf r.nodeVnodes id) ↔
        v ∈ r.vnodes ∨ v ∈ vnodesOf r.nodeVnodes id := fun v => by
      rw [(S.perm _).mem_iff, List.mem_append]
    refine ⟨S.sorted _, ?_, fun v => ?_, fun id' => ?_, h.pos⟩
    · refine ((S.perm _).nodup_iff).2 (List.nodup_append.2 ⟨h.nodup, vnodesOf_nodup _ _, ?_⟩)
      rintro v hv w hw rfl
      exact hid ((mem_vnodesOf.1 hw).1 ▸ ((h.mem_vnodes v).1 hv).1)
    · simp only [hmem, h.mem_vnodes, mem_vnodesOf, Finset.mem_insert]
      constructor
      · rintro (⟨h1, h2⟩ | ⟨rfl, h2⟩)
        · exact ⟨Or.inr h1, h2⟩
        · exact ⟨Or.inl rfl, h2⟩
      · rintro ⟨rfl | h1, h2⟩
        · exact Or.inr ⟨rfl, h2⟩
        · exact Or.inl ⟨h1, h2⟩
    · simp only [Finmap.mem_insert, Finset.mem_insert, h.mem_loads]

theorem removeNode_wf (h : r.WF) (id : NodeID) : (r.removeNode id).1.WF := by
  unfold removeNode
  split_ifs with hid
  · refine ⟨h.sorted.filter _, h.nodup.filter _, fun v => ?_, fun id' => ?_, h.pos⟩
    · simp only [List.mem_filter, h.mem_vnodes, Finset.mem_erase, decide_eq_true_eq]
      tauto
    · simp only [Finmap.mem_erase, Finset.mem_erase, h.mem_loads]
  · exact h

theorem addNode_nodes (S : SortSlice) (r : Ring) (id : NodeID) :
    (r.addNode S id).1.nodes = insert id r.nodes := by
  unfold addNode
  split_ifs with hid
  · exact (Finset.insert_eq_of_mem hid).symm
  · rfl

theorem removeNode_nodes (r : Ring) (id : NodeID) : (r.removeNode id).1.nodes = r.nodes.erase id := by
  unfold removeNode
  split_ifs with hid
  · rfl
  · exact (Finset.erase_eq_of_notMem hid).symm

theorem removeNode_snd (r : Ring) (id : NodeID) : (r.removeNode id).2 = decide (id ∈ r.nodes) := by
  unfold removeNode
  split_ifs with hid <;> simp [hid]

theorem addLoad_wf (h : r.WF) (d : ℤ) (id : NodeID) : (addLoad d r id).WF := by
  unfold addLoad
  split
  · rename_i load hl
    refine ⟨h.sorted, h.nodup, h.mem_vnodes, fun id' => ?_, h.pos⟩
    have hid : id ∈ r.loads := Finmap.lookup_isSome.1 (by rw [hl]; rfl)
    simp only [Finmap.mem_insert, h.mem_loads]
    constructor
    · rintro (rfl | h')
      · exact (h.mem_loads _).1 hid
      · exact h'
    · exact Or.inr
  · exact h

theorem exec_wf (h : r.WF) (op : Op) : (exec S r op).WF := by
  cases op with
  | addNode id => exact addNode_wf h id
  | removeNode id => exact removeNode_wf h id
  | incrementLoad id => exact addLoad_wf h 1 id
  | decrementLoad id => exact addLoad_wf h (-1) id

/-- **Every ring built by a history of operations is well formed.** -/
theorem built_wf {vnodeCount : ℤ} (h : Built S vnodeCount r) : r.WF := by
  obtain ⟨eps, ops, rfl⟩ := h
  exact run_inv (I := WF) (fun _ op hr => exec_wf hr op) (new_wf vnodeCount eps) ops

theorem exec_nodeVnodes (op : Op) : (exec S r op).nodeVnodes = r.nodeVnodes := by
  cases op <;> simp only [exec, addNode, removeNode, incrementLoad, decrementLoad, addLoad] <;>
    split <;> rfl

/-- The virtual nodes per node on a ring made with a given count. -/
abbrev vnodesPerNode (vnodeCount : ℤ) : ℕ := (new vnodeCount 0).nodeVnodes

theorem built_nodeVnodes {vnodeCount : ℤ} (h : Built S vnodeCount r) :
    r.nodeVnodes = vnodesPerNode vnodeCount := by
  obtain ⟨eps, ops, rfl⟩ := h
  have h₀ : (new vnodeCount eps).nodeVnodes = vnodesPerNode vnodeCount := rfl
  refine run_inv (I := fun r : Ring => r.nodeVnodes = vnodesPerNode vnodeCount)
    (fun r op hr => ?_) h₀ ops
  rw [exec_nodeVnodes, hr]

/-- A request on a node takes its load counter up and down again. -/
theorem decrementLoad_incrementLoad (r : Ring) (id : NodeID) :
    (r.incrementLoad id).decrementLoad id = r := by
  unfold incrementLoad decrementLoad addLoad
  rcases hl : r.loads.lookup id with _ | load
  · simp [hl]
  · have : (r.loads.insert id (load + 1)).insert id (load + 1 + -1) = r.loads := by
      refine Finmap.ext_lookup fun id' => ?_
      rw [Finmap.insert_insert]
      by_cases h : id' = id
      · subst h; simp [hl]
      · rw [Finmap.lookup_insert_of_ne _ h]
    simp only [Finmap.lookup_insert]
    rw [this]

@[simp] theorem incrementLoad_vnodes (r : Ring) (id : NodeID) :
    (r.incrementLoad id).vnodes = r.vnodes := by
  unfold incrementLoad addLoad; split <;> rfl

@[simp] theorem incrementLoad_nodes (r : Ring) (id : NodeID) :
    (r.incrementLoad id).nodes = r.nodes := by
  unfold incrementLoad addLoad; split <;> rfl

end

/-! ## The clockwise order of the members -/

theorem walk_eq (r : Ring) (idx : ℕ) : r.walk idx = r.vnodes.rotate idx := by
  rcases Nat.eq_zero_or_pos r.vnodes.length with h0 | h0
  · simp [walk, List.length_eq_zero_iff.1 h0]
  · have hget : ∀ i, r.vnodes[(idx + i) % r.vnodes.length]? =
        some (r.vnodes.get ⟨(idx + i) % r.vnodes.length, Nat.mod_lt _ h0⟩) := fun i => by
      rw [List.getElem?_eq_getElem (Nat.mod_lt _ h0)]; rfl
    have : r.walk idx = (List.range r.vnodes.length).map fun i =>
        r.vnodes.get ⟨(idx + i) % r.vnodes.length, Nat.mod_lt _ h0⟩ := by
      simp only [walk, hget]
      exact congrFun List.filterMap_eq_map _
    rw [this]
    refine List.ext_getElem (by simp) fun i h1 h2 => ?_
    simp [List.getElem_rotate, Nat.add_comm idx i]

theorem search_eq (r : Ring) (h : UInt64) : r.search h = firstAt VNode.hash h r.vnodes := rfl

/-- The members in the order in which they are met clockwise from the key. -/
def order (r : Ring) (key : Key) : List NodeID :=
  distinct ∅ ((r.vnodes.rotate (r.search (hashKey key))).map VNode.nodeID)

theorem getNodesLoop_eq (n : ℕ) : ∀ (vs : List VNode) (result : List NodeID) (seen : Finset NodeID),
    getNodesLoop n vs result seen =
      result ++ (distinct seen (vs.map VNode.nodeID)).take (n - result.length)
  | [], result, seen => by simp [getNodesLoop, distinct]
  | v :: vs, result, seen => by
    unfold getNodesLoop
    simp only [List.map_cons, distinct]
    split_ifs with hlt hseen hseen
    · exact getNodesLoop_eq n vs result seen
    · rw [getNodesLoop_eq n vs _ _]
      have : n - result.length = n - (result.length + 1) + 1 := by omega
      simp [this]
    · have : n - result.length = 0 := by omega
      simp [this]
    · have : n - result.length = 0 := by omega
      simp [this]

section
variable {r : Ring} (h : r.WF)
include h

theorem WF.mem_order {key : Key} {x : NodeID} : x ∈ r.order key ↔ x ∈ r.nodes := by
  simp only [order, mem_distinct, List.mem_map, List.mem_rotate, Finset.notMem_empty,
    not_false_eq_true, and_true]
  constructor
  · rintro ⟨v, hv, rfl⟩; exact ((h.mem_vnodes v).1 hv).1
  · intro hx; exact ⟨⟨hashVNode x 0, x, 0⟩, (h.mem_vnodes _).2 ⟨hx, h.pos, rfl⟩, rfl⟩

theorem WF.length_order (key : Key) : (r.order key).length = r.nodes.card := by
  have hnd : (r.order key).Nodup := distinct_nodup _ _
  rw [← List.toFinset_card_of_nodup hnd]
  congr 1
  ext x; rw [List.mem_toFinset]; exact h.mem_order

/-- **`GetNodes(key, n)` is the prefix of length `n` of the clockwise order.** -/
theorem WF.getNodes_eq (key : Key) (n : ℕ) : r.getNodes key n = (r.order key).take n := by
  have hloop : ∀ m, getNodesLoop m (r.walk (r.search (hashKey key))) [] ∅ =
      (r.order key).take m := by
    intro m; rw [walk_eq, getNodesLoop_eq]; rfl
  have hl := h.length_order key
  unfold getNodes
  by_cases h0 : r.vnodes.length = 0
  · have : r.order key = [] := by simp [order, List.length_eq_zero_iff.1 h0, distinct]
    simp [h0, this]
  · by_cases hn : r.nodes.card < n
    · simp only [h0, hn, if_true, if_false, hloop]
      rw [← hl, List.take_length, List.take_of_length_le (by omega)]
    · simp only [h0, hn, if_false, hloop]

theorem WF.order_ne_nil {x : NodeID} (hx : x ∈ r.nodes) (key : Key) : r.order key ≠ [] :=
  List.ne_nil_of_mem (h.mem_order.2 hx)

end

/-! ## The reach of a node -/

/-- The clockwise distance from `h` to the first of the `V` vnodes of `x`. -/
noncomputable def reach (V : ℕ) (h : UInt64) (x : NodeID) : ℕ :=
  sInf {d | ∃ i < V, d = cw h (hashVNode x i)}

theorem reach_le {V : ℕ} {h : UInt64} {x : NodeID} {i : ℕ} (hi : i < V) :
    reach V h x ≤ cw h (hashVNode x i) := Nat.sInf_le ⟨i, hi, rfl⟩

theorem exists_reach {V : ℕ} (hV : 0 < V) (h : UInt64) (x : NodeID) :
    ∃ i < V, reach V h x = cw h (hashVNode x i) :=
  Nat.sInf_mem (s := {d | ∃ i < V, d = cw h (hashVNode x i)}) ⟨_, 0, hV, rfl⟩

/-- No two vnodes of the nodes in `N` share a hash. -/
def NoCollision (V : ℕ) (N : Finset NodeID) : Prop :=
  ∀ x ∈ N, ∀ y ∈ N, ∀ i < V, ∀ j < V, hashVNode x i = hashVNode y j → x = y ∧ i = j

instance (V : ℕ) (N : Finset NodeID) : Decidable (NoCollision V N) :=
  inferInstanceAs (Decidable (∀ x ∈ N, ∀ y ∈ N, ∀ i < V, ∀ j < V,
    hashVNode x i = hashVNode y j → x = y ∧ i = j))

theorem reach_inj {V : ℕ} (hV : 0 < V) {N : Finset NodeID} (hN : NoCollision V N) {h : UInt64}
    {x y : NodeID} (hx : x ∈ N) (hy : y ∈ N) (he : reach V h x = reach V h y) : x = y := by
  obtain ⟨i, hi, hxi⟩ := exists_reach hV h x
  obtain ⟨j, hj, hyj⟩ := exists_reach hV h y
  rw [hxi, hyj] at he
  exact (hN x hx y hy i hi j hj (cw_injective h he)).1

/-- The head of the clockwise order reaches no further than any member. -/
theorem WF.reach_head {r : Ring} (h : r.WF) {key : Key} {p x : NodeID}
    (hp : (r.order key).head? = some p) (hx : x ∈ r.nodes) :
    reach r.nodeVnodes (hashKey key) p ≤ reach r.nodeVnodes (hashKey key) x := by
  have hcw := rotate_pairwise_cw VNode.hash (hashKey key) h.sorted
  rw [← search_eq] at hcw
  rw [order, head?_distinct_empty] at hp
  obtain ⟨i, hi, hxi⟩ := exists_reach h.pos (hashKey key) x
  have hv : (⟨hashVNode x i, x, i⟩ : VNode) ∈ r.vnodes.rotate (r.search (hashKey key)) :=
    List.mem_rotate.2 ((h.mem_vnodes _).2 ⟨hx, hi, rfl⟩)
  rcases hrot : r.vnodes.rotate (r.search (hashKey key)) with _ | ⟨w, ws⟩
  · rw [hrot] at hv; exact absurd hv List.not_mem_nil
  · rw [hrot] at hp hcw hv
    simp only [List.map_cons, List.head?_cons, Option.some.injEq] at hp
    subst hp
    have hw : w ∈ r.vnodes := List.mem_rotate.1 (hrot ▸ List.mem_cons_self)
    obtain ⟨-, hwi, hwh⟩ := (h.mem_vnodes w).1 hw
    refine (reach_le hwi).trans ?_
    rw [hxi, ← hwh]
    rcases List.mem_cons.1 hv with he | hv
    · rw [← he]
    · have hle := (List.pairwise_cons.1 hcw).1 _ hv
      exact hle

/-- **The primary of a key is strictly closer than any other member**, if no two
    vnodes share a hash. -/
theorem WF.reach_primary {r : Ring} (h : r.WF) {N : Finset NodeID} (hN : NoCollision r.nodeVnodes N)
    (hsub : r.nodes ⊆ N) {key : Key} {p x : NodeID} (hp : (r.order key).head? = some p)
    (hx : x ∈ r.nodes) (hne : p ≠ x) :
    reach r.nodeVnodes (hashKey key) p < reach r.nodeVnodes (hashKey key) x := by
  have hpm : p ∈ r.nodes := h.mem_order.1 (List.mem_of_mem_head? hp)
  refine lt_of_le_of_ne (h.reach_head hp hx) fun he => hne ?_
  exact reach_inj h.pos hN (hsub hpm) (hsub hx) he

/-- **Without hash collisions, the vnodes only depend on the members.** -/
theorem WF.vnodes_eq {r r' : Ring} (h : r.WF) (h' : r'.WF) (hV : r.nodeVnodes = r'.nodeVnodes)
    (hn : r.nodes = r'.nodes) (hN : NoCollision r.nodeVnodes r.nodes) : r.vnodes = r'.vnodes := by
  have hmem : ∀ v, v ∈ r.vnodes ↔ v ∈ r'.vnodes := fun v => by
    rw [h.mem_vnodes, h'.mem_vnodes, hV, hn]
  refine List.Perm.eq_of_pairwise (fun v w hv hw hvw hwv => ?_) h.sorted h'.sorted
    ((List.perm_ext_iff_of_nodup h.nodup h'.nodup).2 hmem)
  obtain ⟨hv1, hv2, hv3⟩ := (h.mem_vnodes v).1 hv
  obtain ⟨hw1, hw2, hw3⟩ := (h.mem_vnodes w).1 ((hmem w).2 hw)
  have he : v.hash = w.hash := UInt64.le_antisymm hvw hwv
  obtain ⟨h1, h2⟩ := hN _ hv1 _ hw1 _ hv2 _ hw2 (by rw [← hv3, ← hw3, he])
  obtain ⟨_, _, _⟩ := v
  obtain ⟨_, _, _⟩ := w
  simp_all

end Ring

end DistCache
