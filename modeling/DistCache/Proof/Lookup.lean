/-
  What the two lookups of the ring return.

  * `replica_list`: `GetNodes(key, n)` lists the first `n` members in the order in which
    they are met clockwise from the key;
  * `GetNode` passes over the nodes at or above the limit `max 1 ⌊(1+ε)·average⌋`, and
    falls back to the primary.  So it redirects to a less loaded node only
    (`redirect_less_loaded`), but it also passes over a node exactly at the limit
    (`documented_rule_iff`).
-/
import DistCache.Replication
import DistCache.Proof.BoundedLoad

namespace DistCache.Ring

open Lib

variable {r : Ring} {key : Key}

/-! ## Replica lists -/

/-- The vnodes in the order in which they are met clockwise from the key: those at or
    after its position, then the others. -/
def clockwise (r : Ring) (key : Key) : List VNode :=
  r.vnodes.filter (fun v => hashKey key ≤ v.hash) ++ r.vnodes.filter (fun v => v.hash < hashKey key)

/-- How many vnodes are met before the first one of a node. -/
def firstMet (r : Ring) (key : Key) (x : NodeID) : ℕ :=
  ((r.clockwise key).map VNode.nodeID).idxOf x

theorem WF.order_clockwise (h : r.WF) (key : Key) :
    r.order key = distinct ∅ ((r.clockwise key).map VNode.nodeID) := by
  rw [order, search_eq, rotate_firstAt VNode.hash (hashKey key) h.sorted]
  rfl

theorem WF.order_pairwise (h : r.WF) (key : Key) :
    (r.order key).Pairwise fun x y => r.firstMet key x < r.firstMet key y := by
  rw [h.order_clockwise]
  exact distinct_pairwise_idxOf ((r.clockwise key).map VNode.nodeID) ∅

/-- **The replica list.**  After any history, `GetNodes(key, n)` has the length
    `min n size`, without duplicates, of members in the order in which their first vnode is
    met clockwise from the key; a member that is not listed is met after those that are.  Shorter
    lists are prefixes, and the primary of a key is a replica. -/
theorem replica_list (S : SortSlice) (vnodeCount : ℤ) (maxLoadFactor : ℚ) (ops : List Op)
    (key : Key) (n : ℕ) :
    let r := run (exec S) (new vnodeCount maxLoadFactor) ops
    let l := r.getNodes key n
    l.length = min n r.size ∧ l.Nodup ∧ (∀ x ∈ l, x ∈ r.nodes) ∧
      (l.Pairwise fun x y => r.firstMet key x < r.firstMet key y) ∧
      (∀ x ∈ l, ∀ y ∈ r.nodes, y ∉ l → r.firstMet key x < r.firstMet key y) ∧
      (∀ m ≤ n, r.getNodes key m <+: l) ∧
      ∀ rm : ReplicationManager, rm.isPrimary r key = true → rm.isReplica r key = true := by
  intro r l
  have h : r.WF := built_wf ⟨maxLoadFactor, ops, rfl⟩
  have hl : l = (r.order key).take n := h.getNodes_eq key n
  have hpw := h.order_pairwise key
  refine ⟨?_, ?_, ?_, ?_, ?_, ?_, ?_⟩
  · rw [hl, List.length_take, h.length_order, size]
  · rw [hl]
    exact (distinct_nodup _ _).sublist (List.take_sublist n _)
  · intro x hx
    rw [hl] at hx
    exact h.mem_order.1 (List.mem_of_mem_take hx)
  · rw [hl]
    exact hpw.sublist (List.take_sublist n _)
  · intro x hx y hy hyl
    rw [hl] at hx hyl
    rw [← List.take_append_drop n (r.order key), List.pairwise_append] at hpw
    have hdrop : y ∈ (r.order key).drop n := by
      have hmem : y ∈ r.order key := h.mem_order.2 hy
      rw [← List.take_append_drop n (r.order key), List.mem_append] at hmem
      exact hmem.resolve_left hyl
    exact hpw.2.2 x hx y hdrop
  · intro m hm
    rw [hl, h.getNodes_eq]
    exact List.take_prefix_take_left hm
  · intro rm hp
    rw [ReplicationManager.isPrimary, decide_eq_true_eq, h.getNodes_eq] at hp
    rw [ReplicationManager.isReplica, decide_eq_true_eq, h.getNodes_eq]
    have hsub := List.take_prefix_take_left (l := r.order key) rm.replicaCount_pos
    exact hsub.subset (List.mem_of_mem_head? hp)

/-! ## Loads -/

/-- The ring with the load counters `load` and the factor `eps`. -/
def withLoads (r : Ring) (load : NodeID → ℤ) (eps : ℚ) : Ring :=
  { r with
    loads :=
      ⟨r.nodes.val.map fun id => ⟨id, load id⟩, by
        rw [← Multiset.nodup_keys, Multiset.keys, Multiset.map_map]
        simpa using r.nodes.nodup⟩
    maxLoadFactor := eps }

section
variable (r) (load : NodeID → ℤ) (eps : ℚ)

theorem load_withLoads {x : NodeID} (hx : x ∈ r.nodes) : (r.withLoads load eps).load x = load x := by
  have hl : (r.withLoads load eps).loads.lookup x = some (load x) :=
    Finmap.lookup_eq_some_iff.2 (Multiset.mem_map_of_mem _ hx)
  rw [Ring.load, hl]
  rfl

theorem mem_loads_withLoads {x : NodeID} : x ∈ (r.withLoads load eps).loads ↔ x ∈ r.nodes := by
  simp [withLoads, Finmap.mem_def, Multiset.keys]

theorem totalLoad_withLoads : (r.withLoads load eps).totalLoad = ∑ id ∈ r.nodes, load id := by
  simp only [totalLoad, withLoads, Multiset.map_map]
  rfl

theorem maxLoad_withLoads :
    (r.withLoads load eps).maxLoad =
      max 1 ⌊(1 + eps) * (((∑ id ∈ r.nodes, load id : ℤ) : ℚ) / r.size)⌋ := by
  rw [maxLoad_eq, averageLoad_eq, totalLoad_withLoads, mul_comm]
  rfl

theorem WF.withLoads {r : Ring} (h : r.WF) : (r.withLoads load eps).WF :=
  ⟨h.sorted, h.nodup, h.mem_vnodes, fun _ => mem_loads_withLoads r load eps, h.pos⟩

end

/-- `GetNode` of a ring with a member: the first node below the limit, or the primary. -/
theorem WF.getNode_withLoads (h : r.WF) {x : NodeID} (hx : x ∈ r.nodes) (load : NodeID → ℤ)
    (eps : ℚ) (key : Key) :
    let r' := r.withLoads load eps
    ∃ p l, r'.order key = p :: l ∧ r'.getNodes key 1 = [p] ∧
      r'.getNode key = some (((r'.order key).find? fun y => load y < r'.maxLoad).getD p) := by
  intro r'
  have h' : r'.WF := h.withLoads load eps
  obtain ⟨p, l, hl⟩ := List.exists_cons_of_ne_nil (h'.order_ne_nil (x := x) hx key)
  have hfind : ((r'.order key).find? fun y => r'.load y < r'.maxLoad) =
      (r'.order key).find? fun y => load y < r'.maxLoad := by
    refine List.find?_congr fun y hy => ?_
    rw [load_withLoads r load eps (h'.mem_order.1 hy)]
  refine ⟨p, l, hl, h'.getNodes_one.2 (by rw [hl]; rfl), ?_⟩
  rw [h'.getNode_eq, hfind]
  cases hf : (r'.order key).find? fun y => load y < r'.maxLoad with
  | some x => rfl
  | none => rw [hl]; rfl

/-- **Redirection goes to a less loaded node.**  For every ring with a member, all loads and
    every factor, `GetNode` returns the primary, or a member with a smaller load than the
    primary such that all members met before it are at the limit; and the primary, if all
    members are at the limit. -/
theorem redirect_less_loaded (S : SortSlice) (vnodeCount : ℤ) (maxLoadFactor : ℚ) (ops : List Op)
    (load : NodeID → ℤ) (eps : ℚ) (key : Key) :
    let r := (run (exec S) (new vnodeCount maxLoadFactor) ops).withLoads load eps
    let limit := max 1 ⌊(1 + eps) * (((∑ id ∈ r.nodes, load id : ℤ) : ℚ) / r.size)⌋
    r.nodes.Nonempty →
    ∃ p x, r.getNodes key 1 = [p] ∧ r.getNode key = some x ∧ x ∈ r.nodes ∧
      (x = p ∨ load x < load p ∧
        ∃ before after, r.getNodes key r.size = before ++ x :: after ∧
          ∀ y ∈ before, limit ≤ load y) ∧
      ((∀ y ∈ r.nodes, limit ≤ load y) → x = p) := by
  intro r limit hne
  have hbuilt : (run (exec S) (new vnodeCount maxLoadFactor) ops).WF :=
    built_wf ⟨maxLoadFactor, ops, rfl⟩
  have h : r.WF := hbuilt.withLoads load eps
  have hlimit : r.maxLoad = limit := maxLoad_withLoads _ load eps
  obtain ⟨x₀, hx₀⟩ := hne
  obtain ⟨p, l, hl, hone, hget⟩ := hbuilt.getNode_withLoads hx₀ load eps key
  have hp : p ∈ r.nodes := h.mem_order.1 (hl ▸ List.mem_cons_self)
  rw [hlimit] at hget
  cases hf : (r.order key).find? fun y => load y < limit with
  | some x =>
    obtain ⟨hlt, before, after, horder, hbefore⟩ := List.find?_eq_some_iff_append.1 hf
    have hx : x ∈ r.nodes := h.mem_order.1 (List.mem_of_find?_eq_some hf)
    have hlt' : load x < limit := by simpa using hlt
    have hover : ∀ y ∈ before, limit ≤ load y := fun y hy => by simpa using hbefore y hy
    refine ⟨p, x, hone, by rw [hget, hf, Option.getD_some], hx, ?_, fun hall => ?_⟩
    · cases before with
      | nil =>
        rw [hl] at horder
        exact Or.inl (List.cons.inj horder).1.symm
      | cons q before =>
        -- the primary is met first, so it is at the limit
        rw [hl] at horder
        obtain rfl : p = q := (List.cons.inj horder).1
        refine Or.inr ⟨hlt'.trans_le (hover p List.mem_cons_self), p :: before, after, ?_, hover⟩
        rw [h.getNodes_size, hl, horder]
    · exact absurd (hall x hx) (not_le.2 hlt')
  | none =>
    refine ⟨p, p, hone, ?_, hp, Or.inl rfl, fun _ => rfl⟩
    rw [hget, hf, Option.getD_none]

/-- The primary is above the limit, and the key goes to another node. -/
theorem redirect_less_loaded_four :
    let load : NodeID → ℤ := fun id => if id = ascii ['d'] then 5 else 1
    let r := Balancer.fourNodes.withLoads load (1 / 4)
    ∃ p x, r.getNodes [1] 1 = [p] ∧ r.getNode [1] = some x ∧ x ≠ p ∧ load x < load p := by
  intro load r
  obtain ⟨p, x, hp, hx, -, hor, -⟩ := redirect_less_loaded .insertion 1 (1 / 4)
    [.addNode (ascii ['a']), .addNode (ascii ['b']), .addNode (ascii ['c']), .addNode (ascii ['d'])]
    load (1 / 4) [1] ⟨ascii ['a'], by decide⟩
  have hne : x ≠ p := by
    rintro rfl
    have heq : r.getNodes [1] 1 = (r.getNode [1]).toList :=
      hp.trans (congrArg Option.toList hx).symm
    exact absurd heq (by decide +kernel)
  exact ⟨p, x, hp, hx, hne, (hor.resolve_left hne).1⟩

/-- Some node has at most the average load. -/
theorem exists_le_average {N : Finset NodeID} (hne : N.Nonempty) (load : NodeID → ℤ) :
    ∃ y ∈ N, (load y : ℚ) ≤ ((∑ id ∈ N, load id : ℤ) : ℚ) / N.card := by
  have hcard : (N.card : ℚ) ≠ 0 := by exact_mod_cast hne.card_pos.ne'
  refine Finset.exists_le_of_sum_le hne ?_
  rw [Finset.sum_const, nsmul_eq_mul, mul_div_cancel₀ _ hcard]
  push_cast
  exact le_rfl

/-- **When `GetNode` follows the documented rule.**  The documented choice is the first node
    clockwise whose load is at most `(1 + ε)` times the average.  `GetNode` returns it if and
    only if its load is below the limit, or it is the primary and no node is below the limit. -/
theorem documented_rule_iff (S : SortSlice) (vnodeCount : ℤ) (maxLoadFactor : ℚ) (ops : List Op)
    (load : NodeID → ℤ) (eps : ℚ) (heps : 0 ≤ eps) (key : Key) :
    let r := (run (exec S) (new vnodeCount maxLoadFactor) ops).withLoads load eps
    let avg : ℚ := ((∑ id ∈ r.nodes, load id : ℤ) : ℚ) / r.size
    let limit := max 1 ⌊(1 + eps) * avg⌋
    r.nodes.Nonempty → (∀ id ∈ r.nodes, 0 ≤ load id) →
    ∃ p d, r.getNodes key 1 = [p] ∧
      (r.getNodes key r.size).find? (fun y => (load y : ℚ) ≤ (1 + eps) * avg) = some d ∧
      (r.getNode key = some d ↔ load d < limit ∨ d = p ∧ ∀ y ∈ r.nodes, limit ≤ load y) := by
  intro r avg limit hne hnonneg
  have hbuilt : (run (exec S) (new vnodeCount maxLoadFactor) ops).WF :=
    built_wf ⟨maxLoadFactor, ops, rfl⟩
  have h : r.WF := hbuilt.withLoads load eps
  have hlimit : r.maxLoad = limit := maxLoad_withLoads _ load eps
  have havg : 0 ≤ avg := by
    have hsum : (0 : ℚ) ≤ ((∑ id ∈ r.nodes, load id : ℤ) : ℚ) := by
      exact_mod_cast Finset.sum_nonneg hnonneg
    positivity
  -- a node below the limit is within the documented bound
  have hbelow : ∀ y, load y < limit → (load y : ℚ) ≤ (1 + eps) * avg := by
    intro y hy
    by_contra hover
    have hpos : (0 : ℚ) < load y := lt_of_le_of_lt (by positivity) (not_le.1 hover)
    refine absurd hy (not_lt.2 (max_le (by exact_mod_cast hpos) ?_))
    exact Int.floor_le_iff.2 ((not_le.1 hover).trans (lt_add_one _))
  obtain ⟨x₀, hx₀⟩ := hne
  obtain ⟨p, -, -, hone, hget⟩ := hbuilt.getNode_withLoads hx₀ load eps key
  obtain ⟨y, hy, hle⟩ := exists_le_average ⟨x₀, hx₀⟩ load
  have hbound : (load y : ℚ) ≤ (1 + eps) * avg := by
    calc (load y : ℚ) ≤ avg := hle
      _ ≤ (1 + eps) * avg := le_mul_of_one_le_left havg (by linarith)
  obtain ⟨d, hd⟩ : ∃ d, (r.order key).find? (fun y => (load y : ℚ) ≤ (1 + eps) * avg) = some d :=
    Option.isSome_iff_exists.1 (List.find?_isSome.2 ⟨y, h.mem_order.2 hy, decide_eq_true hbound⟩)
  refine ⟨p, d, hone, by rw [h.getNodes_size]; exact hd, ?_⟩
  have hiff := getD_find?_eq_iff (P := fun y => decide (load y < limit)) (p := p) hd
    fun y _ hlt => decide_eq_true (hbelow y (of_decide_eq_true hlt))
  rw [hget, hlimit, Option.some_inj]
  refine hiff.trans (or_congr decide_eq_true_iff (and_congr_right fun _ => forall_congr' fun y => ?_))
  rw [decide_eq_false_iff_not, not_lt]
  exact imp_congr_left h.mem_order

/-- One request on every node and twice the average allowed: the choice is the documented
    one. -/
theorem documented_rule_iff_four :
    let load : NodeID → ℤ := fun _ => 1
    let r := Balancer.fourNodes.withLoads load 1
    let avg : ℚ := ((∑ id ∈ r.nodes, load id : ℤ) : ℚ) / r.size
    ∃ d, (r.getNodes [1] r.size).find? (fun y => (load y : ℚ) ≤ (1 + 1) * avg) = some d ∧
      r.getNode [1] = some d := by
  intro load r avg
  obtain ⟨p, d, -, hd, hiff⟩ := documented_rule_iff .insertion 1 (1 / 4)
    [.addNode (ascii ['a']), .addNode (ascii ['b']), .addNode (ascii ['c']), .addNode (ascii ['d'])]
    load 1 zero_le_one [1] ⟨ascii ['a'], by decide⟩ (fun _ _ => zero_le_one)
  have hlimit : (1 : ℤ) < max 1 ⌊(1 + 1) * avg⌋ := by decide +kernel
  exact ⟨d, hd, hiff.2 (Or.inl hlimit)⟩

/-- The primary holds two requests, `(1 + ε)` times the average is `35/16`, and the key
    is redirected. -/
theorem documented_rule_fails :
    let load : NodeID → ℤ := fun id => if id = ascii ['c'] then 1 else 2
    let r := Balancer.fourNodes.withLoads load (1 / 4)
    let avg : ℚ := ((∑ id ∈ r.nodes, load id : ℤ) : ℚ) / r.size
    r.getNodes [1] 1 = [ascii ['d']] ∧ (load (ascii ['d']) : ℚ) ≤ (1 + 1 / 4) * avg ∧
      r.getNode [1] = some (ascii ['c']) := by
  decide +kernel

end DistCache.Ring
