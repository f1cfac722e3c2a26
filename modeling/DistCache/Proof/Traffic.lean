/-
  Load counters and the requests in flight.

  A node that is removed and added again gets a new counter.  A request that started on the
  old one still calls `DecrementLoad` when it finishes, and the new counter loses one
  (`Harmless`).  Without such a request, every counter is the number of the requests
  that incremented it and are still in flight (`loads_track_iff`).
-/
import DistCache.Proof.BoundedLoad

namespace DistCache

open Lib DistCache.Ring

namespace Ring

variable {S : SortSlice} {r : Ring} {x y : NodeID}

/-- An increment or a decrement of a member. -/
theorem WF.load_addLoad_of_mem (h : r.WF) (hy : y ∈ r.nodes) (d : ℤ) (x : NodeID) :
    (addLoad d r x).load y = r.load y + if y = x then d else 0 := by
  by_cases hx : x ∈ r.loads
  · exact load_addLoad hx d y
  · -- a node without a counter is not a member
    have hne : y ≠ x := by
      rintro rfl
      exact hx ((h.mem_loads y).2 hy)
    rw [if_neg hne, add_zero, addLoad, Finmap.lookup_eq_none.2 hx]

end Ring

namespace Traffic

variable {S : SortSlice} {t : Traffic} {x : NodeID}

/-- The number of the requests in flight that incremented the counter of a node. -/
def counted (t : Traffic) (x : NodeID) : ℕ := t.inFlight.count ⟨x, true⟩

/-- The counters of the members track the requests in flight. -/
def Tracks (t : Traffic) : Prop :=
  ∀ x ∈ t.ring.nodes, t.ring.load x = t.counted x ∧ 0 ≤ t.ring.load x

/-- A step does no harm unless it finishes a request on a member that was added after the
    request started. -/
def Harmless (t : Traffic) : Act → Prop
  | .finish req => req.counted = true ∨ req.nodeID ∉ t.ring.nodes
  | _ => True

instance (t : Traffic) : ∀ a, Decidable (t.Harmless a)
  | .start _ => inferInstanceAs (Decidable True)
  | .finish req => inferInstanceAs (Decidable (req.counted = true ∨ req.nodeID ∉ t.ring.nodes))
  | .addNode _ => inferInstanceAs (Decidable True)
  | .removeNode _ => inferInstanceAs (Decidable True)

/-! ## One step -/

theorem step_wf (h : t.ring.WF) (a : Act) : (step S t a).ring.WF := by
  cases a with
  | start x => exact addLoad_wf h 1 x
  | finish req => exact addLoad_wf h (-1) req.nodeID
  | addNode x => exact addNode_wf h x
  | removeNode x => exact removeNode_wf h x

theorem count_uncount (reqs : List Ticket) (x y : NodeID) :
    (reqs.map (uncount x)).count ⟨y, true⟩ = if y = x then 0 else reqs.count ⟨y, true⟩ := by
  induction reqs with
  | nil => simp
  | cons req reqs ih =>
    obtain ⟨z, c⟩ := req
    rw [List.map_cons, List.count_cons, ih, List.count_cons]
    by_cases hz : z = x
    · subst hz
      by_cases hy : y = z
      · simp [uncount, hy]
      · simp [uncount, hy, Ne.symm hy]
    · by_cases hy : y = x
      · subst hy
        simp [uncount, hz]
      · simp [uncount, hz, hy]

theorem Tracks.of_counted (h : ∀ x ∈ t.ring.nodes, t.ring.load x = t.counted x) : t.Tracks :=
  fun x hx => ⟨h x hx, by rw [h x hx]; omega⟩

theorem Tracks.start (h : t.Tracks) (hwf : t.ring.WF) (x : NodeID) :
    (step S t (.start x)).Tracks := by
  refine .of_counted fun y hy => ?_
  have hy' : y ∈ t.ring.nodes := by rwa [step, incrementLoad, addLoad_nodes] at hy
  show (addLoad 1 t.ring x).load y = ((⟨x, true⟩ :: t.inFlight).count ⟨y, true⟩ : ℕ)
  rw [hwf.load_addLoad_of_mem hy', (h y hy').1, counted, List.count_cons]
  by_cases hxy : y = x
  · simp [hxy]
  · simp [hxy, Ne.symm hxy]

theorem Tracks.addNode (h : t.Tracks) (x : NodeID) : (step S t (.addNode x)).Tracks := by
  by_cases hx : x ∈ t.ring.nodes
  · simpa only [step, Ring.addNode, if_pos hx, Bool.false_eq_true, if_false] using h
  · refine .of_counted fun y hy => ?_
    have hstep : (step S t (.addNode x)).inFlight = t.inFlight.map (uncount x) := by
      simp only [step, Ring.addNode, if_neg hx, if_true]
    rw [counted, hstep, count_uncount]
    show (t.ring.addNode S x).1.load y = _
    rw [load_addNode hx]
    split_ifs with hyx
    · rfl
    · have hy' : y ∈ t.ring.nodes := by
        simp only [step, Ring.addNode, if_neg hx, Finset.mem_insert] at hy
        exact hy.resolve_left hyx
      exact (h y hy').1

theorem Tracks.removeNode (h : t.Tracks) (x : NodeID) : (step S t (.removeNode x)).Tracks := by
  by_cases hx : x ∈ t.ring.nodes
  · refine .of_counted fun y hy => ?_
    simp only [step, Ring.removeNode, if_pos hx, Finset.mem_erase] at hy
    show (t.ring.removeNode x).1.load y = t.counted y
    rw [load_removeNode hy.1, (h y hy.2).1]
  · simpa only [step, Ring.removeNode, if_neg hx] using h

/-- The end of a request takes one from the counter of its node, whether the request was
    counted or not. -/
theorem Tracks.finish_iff (h : t.Tracks) (hwf : t.ring.WF) {req : Ticket}
    (hreq : req ∈ t.inFlight) :
    (step S t (.finish req)).Tracks ↔ t.Harmless (.finish req) := by
  obtain ⟨x, c⟩ := req
  have hnodes : (step S t (.finish ⟨x, c⟩)).ring.nodes = t.ring.nodes := addLoad_nodes _ _ _
  have hload : ∀ y ∈ t.ring.nodes, (step S t (.finish ⟨x, c⟩)).ring.load y =
      t.counted y + if y = x then -1 else 0 := by
    intro y hy
    rw [← (h y hy).1]
    exact hwf.load_addLoad_of_mem hy (-1) x
  have hcount : ∀ y, (step S t (.finish ⟨x, c⟩)).counted y =
      t.counted y - if (⟨x, c⟩ : Ticket) == ⟨y, true⟩ then 1 else 0 := fun y => List.count_erase ..
  cases c with
  | true =>
    refine iff_of_true (.of_counted fun y hy => ?_) (Or.inl rfl)
    rw [hnodes] at hy
    rw [hload y hy, hcount y]
    by_cases hyx : y = x
    · subst hyx
      have hpos : 0 < t.counted y := List.count_pos_iff.2 hreq
      simp
      omega
    · simp [hyx, Ne.symm hyx]
  | false =>
    have hcount' : ∀ y, (step S t (.finish ⟨x, false⟩)).counted y = t.counted y := by
      intro y
      simp [hcount y]
    constructor
    · intro h'
      refine Or.inr fun hx => ?_
      have hx' := (h' x (hnodes ▸ hx)).1
      rw [hload x hx, hcount', if_pos rfl] at hx'
      omega
    · rintro (hc | hx)
      · exact absurd hc Bool.false_ne_true
      · refine .of_counted fun y hy => ?_
        rw [hnodes] at hy
        have hyx : y ≠ x := by
          rintro rfl
          exact hx hy
        rw [hload y hy, hcount', if_neg hyx, add_zero]

theorem Tracks.step_iff (h : t.Tracks) (hwf : t.ring.WF) {a : Act} (ha : t.Enabled a) :
    (step S t a).Tracks ↔ t.Harmless a := by
  cases a with
  | start x => exact iff_of_true (h.start hwf x) trivial
  | finish req => exact h.finish_iff hwf ha
  | addNode x => exact iff_of_true (h.addNode x) trivial
  | removeNode x => exact iff_of_true (h.removeNode x) trivial

/-! ## Runs -/

/-- **The load counters track the requests in flight, as far as they do.**  In every run from
    an empty ring, at every point the counter of every member is the number of unfinished
    requests that incremented it since it was last added, and is not negative, exactly if no
    request finishes on a member that was added after the request started. -/
theorem loads_track_iff (S : SortSlice) (vnodeCount : ℤ) (maxLoadFactor : ℚ) (acts : List Act)
    (hacts : Along (step S) Enabled ⟨new vnodeCount maxLoadFactor, []⟩ acts) :
    (∀ pre, pre <+: acts → (run (step S) ⟨new vnodeCount maxLoadFactor, []⟩ pre).Tracks) ↔
      Along (step S) Harmless ⟨new vnodeCount maxLoadFactor, []⟩ acts := by
  refine Along.good_iff (J := fun t : Traffic => t.ring.WF) (fun t a h _ => step_wf h a)
    (fun t a hwf ha h => h.step_iff hwf ha) hacts (new_wf _ _) ?_
  exact .of_counted fun x hx => absurd hx (Finset.notMem_empty x)

/-- A request on a node that stays. -/
theorem loads_track_start :
    let acts := [.addNode (ascii ['a']), .start (ascii ['a']), .finish ⟨ascii ['a'], true⟩]
    (run (step .insertion) ⟨new 1 (1 / 4), []⟩ acts).Tracks := by
  intro acts
  exact (loads_track_iff .insertion 1 (1 / 4) acts (by decide)).2 (by decide) acts
    (List.prefix_refl acts)

/-- A request starts on a node, the node is removed and added again, and the request
    finishes: the counter is negative. -/
theorem load_negative_after_rejoin :
    let acts := [.addNode (ascii ['a']), .start (ascii ['a']), .removeNode (ascii ['a']),
      .addNode (ascii ['a']), .finish ⟨ascii ['a'], false⟩]
    let t := run (step .insertion) ⟨new 1 (1 / 4), []⟩ acts
    Along (step .insertion) Enabled ⟨new 1 (1 / 4), []⟩ acts ∧ ascii ['a'] ∈ t.ring.nodes ∧
      t.inFlight = [] ∧ t.ring.load (ascii ['a']) = -1 := by
  decide +kernel

end Traffic

end DistCache
