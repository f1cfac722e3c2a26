/-
  Consistent hashing with bounded loads: how far `GetNode` keeps the load of a node
  below `(1 + ε)` times the average.

  A node that is not overloaded when it is chosen stays within the bound
  (`Inv.maxLoad_le`).  When all nodes are overloaded, `GetNode` falls back to
  the primary of the key, whatever its load.
-/
import DistCache.Proof.Ownership

namespace DistCache

open Lib DistCache.Ring

namespace Ring

variable {S : SortSlice} {r : Ring} {x y : NodeID}

/-! ## The load counters -/

theorem load_addLoad (hx : x ∈ r.loads) (d : ℤ) (y : NodeID) :
    (addLoad d r x).load y = r.load y + if y = x then d else 0 := by
  obtain ⟨load, hl⟩ := Option.isSome_iff_exists.1 (Finmap.lookup_isSome.2 hx)
  simp only [addLoad, hl, Ring.load]
  split_ifs with hy
  · subst hy; simp [hl]
  · rw [Finmap.lookup_insert_of_ne _ hy, add_zero]

theorem load_addNode (hx : x ∉ r.nodes) (y : NodeID) :
    (r.addNode S x).1.load y = if y = x then 0 else r.load y := by
  rw [addNode, if_neg hx]
  simp only [Ring.load]
  split_ifs with hy
  · rw [hy, Finmap.lookup_insert, Option.getD_some]
  · rw [Finmap.lookup_insert_of_ne _ hy]

theorem load_removeNode (hy : y ≠ x) : (r.removeNode x).1.load y = r.load y := by
  unfold removeNode
  split_ifs
  · simp only [Ring.load]
    rw [Finmap.lookup_erase_ne hy]
  · rfl

theorem totalLoad_eq (r : Ring) : r.totalLoad = ∑ id ∈ r.loads.keys, r.load id := by
  have hval : ∀ e ∈ r.loads.entries, r.load e.1 = e.2 := by
    rintro ⟨id, load⟩ he
    simp [Ring.load, Finmap.lookup_eq_some_iff.2 he]
  rw [totalLoad, ← Multiset.map_congr rfl hval]
  show _ = ((r.loads.entries.map Sigma.fst).map r.load).sum
  rw [Multiset.map_map]
  rfl

theorem keys_addLoad (hx : x ∈ r.loads) (d : ℤ) : (addLoad d r x).loads.keys = r.loads.keys := by
  obtain ⟨load, hl⟩ := Option.isSome_iff_exists.1 (Finmap.lookup_isSome.2 hx)
  ext y
  simp only [addLoad, hl, Finmap.mem_keys, Finmap.mem_insert]
  constructor
  · rintro (rfl | hy)
    · exact hx
    · exact hy
  · exact Or.inr

theorem totalLoad_addLoad (hx : x ∈ r.loads) (d : ℤ) :
    (addLoad d r x).totalLoad = r.totalLoad + d := by
  have hmem : x ∈ r.loads.keys := Finmap.mem_keys.2 hx
  simp only [totalLoad_eq, keys_addLoad hx, load_addLoad hx, Finset.sum_add_distrib,
    Finset.sum_ite_eq', hmem, if_true]

theorem addLoad_nodes (d : ℤ) (r : Ring) (x : NodeID) : (addLoad d r x).nodes = r.nodes := by
  unfold addLoad; split <;> rfl

theorem addLoad_maxLoadFactor (d : ℤ) (r : Ring) (x : NodeID) :
    (addLoad d r x).maxLoadFactor = r.maxLoadFactor := by
  unfold addLoad; split <;> rfl

theorem exec_maxLoadFactor (op : Op) : (exec S r op).maxLoadFactor = r.maxLoadFactor := by
  cases op with
  | addNode id => simp only [exec, addNode]; split <;> rfl
  | removeNode id => simp only [exec, removeNode]; split <;> rfl
  | incrementLoad id => exact addLoad_maxLoadFactor 1 r id
  | decrementLoad id => exact addLoad_maxLoadFactor (-1) r id

theorem built_maxLoadFactor {vnodeCount : ℤ} (h : Built S vnodeCount r) : 0 ≤ r.maxLoadFactor := by
  obtain ⟨eps, ops, rfl⟩ := h
  refine run_inv (I := fun r : Ring => 0 ≤ r.maxLoadFactor) (fun r op hr => ?_) ?_ ops
  · rw [exec_maxLoadFactor]; exact hr
  · simp only [new]
    split_ifs with heps
    · norm_num
    · exact not_lt.1 heps

theorem averageLoad_eq (r : Ring) : r.averageLoad = r.totalLoad / r.nodes.card := by
  simp only [averageLoad]
  split_ifs with hn
  · simp [hn]
  · rfl

/-- The limit of `GetNode` is `(1 + ε)` times the average load, rounded down, and at least
    `1`. -/
theorem maxLoad_eq (r : Ring) :
    r.maxLoad = max 1 ⌊r.averageLoad * (1 + r.maxLoadFactor)⌋ := by
  simp only [maxLoad]
  generalize r.averageLoad * (1 + r.maxLoadFactor) = q
  rcases le_or_gt 0 q with hq | hq
  · -- truncation is the floor
    rw [Int.tdiv_eq_ediv_of_nonneg (Rat.num_nonneg.2 hq), ← Rat.floor_def']
    split_ifs <;> omega
  · have hfloor : ⌊q⌋ < 0 := Int.floor_lt.2 (by simpa using hq)
    have hnum : q.num < 0 := Rat.num_neg.2 hq
    have htdiv : 0 ≤ (-q.num).tdiv q.den := Int.tdiv_nonneg (by omega) (Int.natCast_nonneg _)
    rw [Int.neg_tdiv] at htdiv
    rw [if_pos (by omega), max_eq_left (by omega)]

/-- The limit of `GetNode` is `1`, or at most `(1 + ε)` times the average load. -/
theorem maxLoad_le (r : Ring) :
    r.maxLoad = 1 ∨
      (r.maxLoad : ℚ) ≤ (1 + r.maxLoadFactor) * r.totalLoad / r.nodes.card := by
  rcases max_choice 1 ⌊r.averageLoad * (1 + r.maxLoadFactor)⌋ with hmax | hmax
  · exact Or.inl (r.maxLoad_eq.trans hmax)
  · right
    rw [r.maxLoad_eq, hmax]
    calc ((⌊r.averageLoad * (1 + r.maxLoadFactor)⌋ : ℤ) : ℚ)
        ≤ r.averageLoad * (1 + r.maxLoadFactor) := Int.floor_le _
      _ = (1 + r.maxLoadFactor) * r.totalLoad / r.nodes.card := by rw [averageLoad_eq]; ring

end Ring

namespace Balancer

/-! ## Runs -/

/-- What holds while requests are assigned and completed on the ring `r₀`. -/
structure Inv (r₀ : Ring) (b : Balancer) : Prop where
  wf : b.ring.WF
  nodes : b.ring.nodes = r₀.nodes
  factor : b.ring.maxLoadFactor = r₀.maxLoadFactor
  active : ∀ id ∈ b.active, id ∈ b.ring.nodes
  total : b.ring.totalLoad = b.active.length

variable {r₀ : Ring} {b : Balancer} {key : Key} {x p : NodeID}

theorem inv_start {S : SortSlice} {vnodeCount : ℤ} (hb : Built S vnodeCount r₀)
    (h0 : ∀ id ∈ r₀.nodes, r₀.load id = 0) : Inv r₀ ⟨r₀, []⟩ where
  wf := built_wf hb
  nodes := rfl
  factor := rfl
  active := by simp
  total := by
    rw [totalLoad_eq]
    refine Finset.sum_eq_zero fun id hid => ?_
    exact h0 id (((built_wf hb).mem_loads id).1 (Finmap.mem_keys.1 hid))

theorem Inv.getNode_mem (h : Inv r₀ b) (hx : b.ring.getNode key = some x) : x ∈ b.ring.nodes := by
  rw [h.wf.getNode_eq] at hx
  rcases Option.or_eq_some_iff.1 hx with hf | ⟨-, hh⟩
  · exact h.wf.mem_order.1 (List.mem_of_find?_eq_some hf)
  · exact h.wf.mem_order.1 (List.mem_of_mem_head? hh)

/-- One more, or one less, request at a node. -/
theorem Inv.addLoad (h : Inv r₀ b) {d : ℤ} (hx : x ∈ b.ring.nodes) {active : List NodeID}
    (hact : ∀ id ∈ active, id ∈ b.ring.nodes) (hlen : (active.length : ℤ) = b.active.length + d) :
    Inv r₀ ⟨Ring.addLoad d b.ring x, active⟩ where
  wf := addLoad_wf h.wf d x
  nodes := (addLoad_nodes d b.ring x).trans h.nodes
  factor := (addLoad_maxLoadFactor d b.ring x).trans h.factor
  active id hid := by
    show id ∈ (Ring.addLoad d b.ring x).nodes
    rw [addLoad_nodes]
    exact hact id hid
  total := by
    show (Ring.addLoad d b.ring x).totalLoad = _
    rw [totalLoad_addLoad ((h.wf.mem_loads x).2 hx), h.total, hlen]

theorem Inv.step (h : Inv r₀ b) {a : Act} (ha : b.Enabled a) : Inv r₀ (b.step a) := by
  cases a with
  | assign key =>
    simp only [Balancer.step]
    cases hx : b.ring.getNode key with
    | none => exact h
    | some x =>
      have hmem := h.getNode_mem hx
      refine h.addLoad hmem ?_ (by simp)
      intro id hid
      rcases List.mem_cons.1 hid with rfl | hid
      · exact hmem
      · exact h.active id hid
  | complete x =>
    have hx : x ∈ b.active := ha
    refine h.addLoad (h.active x hx) (fun id hid => h.active id (List.mem_of_mem_erase hid)) ?_
    have := List.length_pos_of_mem hx
    rw [List.length_erase_of_mem hx]
    omega

/-- The counters after an assignment. -/
theorem Inv.load_assign (h : Inv r₀ b) {key : Key} {x : NodeID}
    (hx : b.ring.getNode key = some x) :
    (b.step (.assign key)).ring.load x = b.ring.load x + 1 ∧
      (b.step (.assign key)).ring.totalLoad = b.ring.totalLoad + 1 := by
  have hmem := (h.wf.mem_loads x).2 (h.getNode_mem hx)
  have hstep : b.step (.assign key) = ⟨Ring.addLoad 1 b.ring x, x :: b.active⟩ := by
    simp only [Balancer.step, hx]; rfl
  rw [hstep]
  refine ⟨?_, totalLoad_addLoad hmem 1⟩
  simp [load_addLoad hmem]

/-- A node below the limit is within the bound after one more request. -/
theorem Inv.maxLoad_le (h : Inv r₀ b) (heps : 0 ≤ r₀.maxLoadFactor) (hne : r₀.nodes.Nonempty) :
    b.ring.maxLoad ≤
      ⌈(1 + r₀.maxLoadFactor) * ((b.ring.totalLoad + 1 : ℤ) : ℚ) / r₀.nodes.card⌉ := by
  have hpos : (0 : ℚ) < r₀.nodes.card := by exact_mod_cast hne.card_pos
  have htot : 0 ≤ b.ring.totalLoad := by rw [h.total]; omega
  have htot' : (0 : ℚ) ≤ b.ring.totalLoad := by exact_mod_cast htot
  rcases Ring.maxLoad_le b.ring with h1 | h1
  · rw [h1, Int.one_le_ceil_iff]
    push_cast
    positivity
  · refine Int.cast_le.1 (h1.trans (le_trans ?_ (Int.le_ceil _)))
    rw [h.factor, h.nodes]
    push_cast
    gcongr
    linarith

/-- **Bounded loads, as far as they hold.**  In every run, right after an assignment the
    load of the chosen node is within `(1 + ε)` times the average load, rounded up, exactly
    if some node was not overloaded, or the primary of the key was below that bound. -/
theorem assign_bounded_iff {S : SortSlice} {vnodeCount : ℤ} {r : Ring} (hb : Built S vnodeCount r)
    (hne : r.nodes.Nonempty) (h0 : ∀ id ∈ r.nodes, r.load id = 0) (acts : List Act)
    (hacts : Along step Enabled ⟨r, []⟩ acts) (key : Key) :
    let b := run step ⟨r, []⟩ acts
    let b' := b.step (.assign key)
    let bound := ⌈(1 + r.maxLoadFactor) * (b'.ring.totalLoad : ℚ) / r.size⌉
    ∃ x p, b.ring.getNode key = some x ∧ b.ring.getNodes key 1 = [p] ∧
      (b'.ring.load x ≤ bound ↔
        (∃ y ∈ r.nodes, b.ring.load y < b.ring.maxLoad) ∨ b.ring.load p < bound) := by
  intro b b' bound
  have h : Inv r b := Along.inv (I := Inv r) (fun _ _ hb ha => hb.step ha) hacts (inv_start hb h0)
  obtain ⟨y, hy⟩ := hne
  obtain ⟨p, l, hl⟩ := List.exists_cons_of_ne_nil
    (h.wf.order_ne_nil (x := y) (by rw [h.nodes]; exact hy) key)
  have hhead : (b.ring.order key).head? = some p := by rw [hl]; rfl
  cases hf : (b.ring.order key).find? fun id => b.ring.load id < b.ring.maxLoad with
  | some x =>
    have hx : b.ring.getNode key = some x := by rw [h.wf.getNode_eq, hf]; rfl
    have hlt : b.ring.load x < b.ring.maxLoad := by simpa using List.find?_some hf
    obtain ⟨hload, htotal⟩ : b'.ring.load x = _ ∧ b'.ring.totalLoad = _ := h.load_assign hx
    have hbound : b.ring.maxLoad ≤ bound := by
      have := h.maxLoad_le (built_maxLoadFactor hb) ⟨y, hy⟩
      simpa only [bound, htotal, size] using this
    refine ⟨x, p, hx, h.wf.getNodes_one.2 hhead, fun _ => Or.inl ⟨x, ?_, hlt⟩, fun _ => by omega⟩
    rw [← h.nodes]
    exact h.getNode_mem hx
  | none =>
    -- every node is overloaded: the primary is chosen
    have hx : b.ring.getNode key = some p := by rw [h.wf.getNode_eq, hf, hhead]; rfl
    have hall : ∀ y ∈ r.nodes, ¬ b.ring.load y < b.ring.maxLoad := by
      intro y hy
      have hmem : y ∈ b.ring.order key := h.wf.mem_order.2 (by rw [h.nodes]; exact hy)
      simpa using List.find?_eq_none.1 hf y hmem
    have hload : b'.ring.load p = b.ring.load p + 1 := (h.load_assign hx).1
    refine ⟨p, p, hx, h.wf.getNodes_one.2 hhead, fun hle => Or.inr (by omega), ?_⟩
    rintro (⟨y, hy, hlt⟩ | hlt)
    · exact absurd hlt (hall y hy)
    · omega

/-- A ring of four nodes with one vnode each, and the default factor. -/
def fourNodes : Ring :=
  run (exec .insertion) (Ring.new 1 (1 / 4))
    [.addNode (ascii ['a']), .addNode (ascii ['b']), .addNode (ascii ['c']), .addNode (ascii ['d'])]

/-- Three requests for one key load three nodes; the fourth is within the bound. -/
theorem assign_bounded_fourth :
    let b := run step ⟨fourNodes, []⟩ (List.replicate 3 (.assign [1]))
    let b' := b.step (.assign [1])
    b'.ring.totalLoad = 4 ∧ ∃ x, b.ring.getNode [1] = some x ∧
      b'.ring.load x ≤
        ⌈(1 + fourNodes.maxLoadFactor) * (b'.ring.totalLoad : ℚ) / fourNodes.size⌉ := by
  intro b b'
  obtain ⟨x, p, hx, -, hiff⟩ := assign_bounded_iff (S := .insertion) (r := fourNodes)
    ⟨1 / 4, _, rfl⟩ ⟨ascii ['a'], by decide⟩ (by decide) (List.replicate 3 (.assign [1]))
    (by decide +kernel) [1]
  exact ⟨by decide +kernel, x, hx, hiff.2 (Or.inl (by decide +kernel))⟩

/-- Six requests for one key: once every node has one request, all of them count as
    overloaded, and the primary takes the next two. -/
theorem assign_exceeds_bound :
    Along step Enabled ⟨fourNodes, []⟩ (List.replicate 6 (.assign [1])) ∧
      (run step ⟨fourNodes, []⟩ (List.replicate 5 (.assign [1]))).ring.getNode [1] =
        some (ascii ['d']) ∧
      ⌈(1 + fourNodes.maxLoadFactor) *
          ((run step ⟨fourNodes, []⟩ (List.replicate 6 (.assign [1]))).ring.totalLoad : ℚ) /
            fourNodes.size⌉ <
        (run step ⟨fourNodes, []⟩ (List.replicate 6 (.assign [1]))).ring.load (ascii ['d']) := by
  decide +kernel

end Balancer

end DistCache
