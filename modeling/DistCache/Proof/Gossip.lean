/-
  Gossip about one peer, in different orders.

  The recorded incarnation is only written when an ALIVE update registers or
  revives a peer, and an update is only rejected if it is strictly older.  So most
  updates do not commute; `OrderFree` is the condition under which all orders
  lead to the same record.
-/
import DistCache.Proof.Membership

namespace DistCache

open Lib

/-- The status of a report against a node. -/
def NodeStatus.IsDown (s : NodeStatus) : Prop := s = .suspect ∨ s = .dead ∨ s = .left

instance : DecidablePred NodeStatus.IsDown := fun s =>
  inferInstanceAs (Decidable (s = .suspect ∨ s = .dead ∨ s = .left))

theorem NodeStatus.IsDown.ne_alive {s : NodeStatus} (h : s.IsDown) : s ≠ .alive := by
  rintro rfl
  rcases h with h | h | h <;> cases h

namespace Record

/-- The update of a record by a message. -/
def apply (r : Record) (u : MembershipUpdate) : Record := r.update u.status u.incarnation

variable {s : NodeStatus} {i j : UInt64} {u : MembershipUpdate} {us : List MembershipUpdate}

theorem apply_stale (h : u.incarnation < j) : apply (some (s, j)) u = some (s, j) := by
  simp [apply, update, h]

theorem apply_alive_of_alive (h : u.status = .alive) :
    apply (some (.alive, j)) u = some (.alive, j) := by
  simp [apply, update, h]

theorem apply_alive (h : u.status = .alive) (hi : j ≤ u.incarnation) (hs : s ≠ .alive) :
    apply (some (s, j)) u = some (.alive, u.incarnation) := by
  simp [apply, update, h, hs, UInt64.not_lt.2 hi]

/-- Only an ALIVE update that is not stale changes the recorded incarnation or revives a
    peer. -/
theorem apply_not_alive (h : j ≤ u.incarnation → u.status ≠ .alive) :
    ∃ s', apply (some (s, j)) u = some (s', j) ∧
      (s' = .alive ↔ s = .alive ∧ ¬ (u.status.IsDown ∧ j ≤ u.incarnation)) := by
  obtain ⟨nodeID, addrs, st, i⟩ := u
  by_cases hi : i < j
  · have : ¬ j ≤ i := UInt64.not_le.2 hi
    exact ⟨s, apply_stale hi, by simp [this]⟩
  · have hle : j ≤ i := UInt64.not_lt.1 hi
    cases st with
    | alive => exact absurd rfl (h hle)
    | suspect =>
      by_cases hs : s = .alive
      · exact ⟨.suspect, by simp [apply, update, hi, hs], by simp [NodeStatus.IsDown, hle]⟩
      · exact ⟨s, by simp [apply, update, hs], by simp [hs]⟩
    | dead => exact ⟨.dead, by simp [apply, update, hi], by simp [NodeStatus.IsDown, hle]⟩
    | left => exact ⟨.left, by simp [apply, update, hi], by simp [NodeStatus.IsDown, hle]⟩
    | unknown n => exact ⟨s, by simp [apply, update], by simp [NodeStatus.IsDown]⟩

/-! ## Runs of updates -/

theorem run_alive_of_alive (h : ∀ u ∈ us, u.status = .alive) :
    run apply (some (.alive, j)) us = some (.alive, j) := by
  induction us with
  | nil => rfl
  | cons u us ih =>
    rw [run_cons, apply_alive_of_alive (h u List.mem_cons_self)]
    exact ih fun v hv => h v (List.mem_cons_of_mem _ hv)

/-- Without such updates, the incarnation stays, and one report that is not stale is
    enough to bring the peer down. -/
theorem run_not_alive (h : ∀ u ∈ us, j ≤ u.incarnation → u.status ≠ .alive) :
    ∃ s', run apply (some (s, j)) us = some (s', j) ∧
      (s' = .alive ↔ s = .alive ∧ ∀ u ∈ us, ¬ (u.status.IsDown ∧ j ≤ u.incarnation)) := by
  induction us generalizing s with
  | nil => exact ⟨s, rfl, by simp⟩
  | cons u us ih =>
    obtain ⟨s₁, h₁, hs₁⟩ := apply_not_alive (s := s) (j := j) (h u List.mem_cons_self)
    obtain ⟨s₂, h₂, hs₂⟩ := ih (s := s₁) fun v hv => h v (List.mem_cons_of_mem _ hv)
    refine ⟨s₂, by rw [run_cons, h₁, h₂], ?_⟩
    rw [hs₂, hs₁, List.forall_mem_cons, and_assoc]

/-- A peer that is not Alive is revived by the first ALIVE update. -/
theorem run_alive_cons (h : ∀ u ∈ us, u.status = .alive) (hu : u.status = .alive)
    (hi : j ≤ u.incarnation) (hs : s ≠ .alive) :
    run apply (some (s, j)) (u :: us) = some (.alive, u.incarnation) := by
  rw [run_cons, apply_alive hu hi hs, run_alive_of_alive h]

/-- ALIVE updates revive a peer, if one of them is not stale. -/
theorem run_alive (h : ∀ u ∈ us, u.status = .alive)
    (hex : ∃ u ∈ us, j ≤ u.incarnation) (hs : s ≠ .alive) :
    ∃ k, run apply (some (s, j)) us = some (.alive, k) := by
  induction us with
  | nil => simp at hex
  | cons u us ih =>
    have htail : ∀ v ∈ us, v.status = .alive := fun v hv => h v (List.mem_cons_of_mem _ hv)
    by_cases hi : j ≤ u.incarnation
    · exact ⟨_, run_alive_cons htail (h u List.mem_cons_self) hi hs⟩
    · rw [run_cons, apply_stale (UInt64.not_le.1 hi)]
      refine ih htail ?_
      obtain ⟨v, hv, hvi⟩ := hex
      rcases List.mem_cons.1 hv with rfl | hv
      · exact absurd hvi hi
      · exact ⟨v, hv, hvi⟩

theorem run_noop {r : Record} (h : ∀ u ∈ us, apply r u = r) : run apply r us = r := by
  induction us with
  | nil => rfl
  | cons u us ih =>
    rw [run_cons, h u List.mem_cons_self]
    exact ih fun v hv => h v (List.mem_cons_of_mem _ hv)

/-- An Alive peer is left alone by ALIVE updates and stale reports. -/
theorem apply_noop (h : u.status.IsDown → u.incarnation < j) :
    apply (some (.alive, j)) u = some (.alive, j) := by
  by_cases hu : u.status = .alive
  · exact apply_alive_of_alive hu
  · obtain ⟨s', he, hs'⟩ := apply_not_alive (s := .alive) (j := j) fun _ => hu
    rw [he, hs'.2 ⟨rfl, fun hd => absurd (h hd.1) (UInt64.not_lt.2 hd.2)⟩]

/-! ## Updates whose order does not matter -/

/-- The condition on updates that are not stale for a record `(s, i)`.  With an ALIVE
    update among them, an Alive peer must not be reported, and a peer that is not
    Alive must be revived at one incarnation, above all reports; without one, not
    both DEAD and LEFT must be reported. -/
def OrderFree (s : NodeStatus) (i : UInt64) (us : List MembershipUpdate) : Prop :=
  (∀ a ∈ us, i ≤ a.incarnation → a.status = .alive → ∀ u ∈ us, i ≤ u.incarnation →
    if s = .alive then ¬ u.status.IsDown
    else (u.status = .alive → u.incarnation = a.incarnation) ∧
      (u.status.IsDown → u.incarnation < a.incarnation)) ∧
  ((∀ a ∈ us, i ≤ a.incarnation → a.status ≠ .alive) →
    ∀ d ∈ us, i ≤ d.incarnation → d.status = .dead → ∀ l ∈ us, i ≤ l.incarnation →
      l.status ≠ .left)

instance : Decidable (OrderFree s i us) := by
  unfold OrderFree; infer_instance

theorem OrderFree.perm {us' : List MembershipUpdate} (h : OrderFree s i us)
    (hp : us'.Perm us) : OrderFree s i us' := by
  simpa only [OrderFree, hp.mem_iff] using h

/-- A peer that is not Alive is revived, if all ALIVE updates carry the incarnation `k`
    and all reports are older. -/
theorem run_revived {k : UInt64} (hik : i ≤ k)
    (h : ∀ u ∈ us, i ≤ u.incarnation →
      (u.status = .alive → u.incarnation = k) ∧ (u.status.IsDown → u.incarnation < k))
    (hex : ∃ a ∈ us, i ≤ a.incarnation ∧ a.status = .alive) (hs : s ≠ .alive) :
    run apply (some (s, i)) us = some (.alive, k) := by
  induction us generalizing s with
  | nil => simp at hex
  | cons u us ih =>
    have htail := fun v hv => h v (List.mem_cons_of_mem _ hv)
    have hrest : u.status ≠ .alive ∨ ¬ i ≤ u.incarnation →
        ∃ a ∈ us, i ≤ a.incarnation ∧ a.status = .alive := by
      intro hu
      obtain ⟨a, ha, hai, has⟩ := hex
      rcases List.mem_cons.1 ha with rfl | ha
      · exact absurd hu (by simp [hai, has])
      · exact ⟨a, ha, hai, has⟩
    rw [run_cons]
    by_cases hi : i ≤ u.incarnation
    · by_cases hu : u.status = .alive
      · rw [apply_alive hu hi hs, (h u List.mem_cons_self hi).1 hu]
        refine run_noop fun v hv => apply_noop fun hd => ?_
        by_cases hvi : i ≤ v.incarnation
        · exact (htail v hv hvi).2 hd
        · exact UInt64.lt_of_lt_of_le (UInt64.not_le.1 hvi) hik
      · obtain ⟨s', he, hs'⟩ := apply_not_alive (s := s) (j := i) fun _ => hu
        rw [he]
        exact ih htail (hrest (Or.inl hu)) fun h => hs (hs'.1 h).1
    · rw [apply_stale (UInt64.not_le.1 hi)]
      exact ih htail (hrest (Or.inr hi)) hs

/-- The status reports leave, if not both DEAD and LEFT are reported. -/
def settle (s : NodeStatus) (i : UInt64) (us : List MembershipUpdate) : NodeStatus :=
  if ∃ u ∈ us, i ≤ u.incarnation ∧ u.status = .dead then .dead
  else if ∃ u ∈ us, i ≤ u.incarnation ∧ u.status = .left then .left
  else if s = .alive ∧ ∃ u ∈ us, i ≤ u.incarnation ∧ u.status = .suspect then .suspect
  else s

theorem settle_perm {us' : List MembershipUpdate} (hp : us'.Perm us) :
    settle s i us' = settle s i us := by
  simp only [settle, hp.mem_iff]

theorem run_settle (ha : ∀ u ∈ us, i ≤ u.incarnation → u.status ≠ .alive)
    (hdl : ∀ d ∈ us, i ≤ d.incarnation → d.status = .dead → ∀ l ∈ us, i ≤ l.incarnation →
      l.status ≠ .left) :
    run apply (some (s, i)) us = some (settle s i us, i) := by
  induction us generalizing s with
  | nil => simp [settle]
  | cons u us ih =>
    have ih' := fun s => ih (s := s) (fun v hv => ha v (List.mem_cons_of_mem _ hv))
      fun d hd hdi hds l hl => hdl d (List.mem_cons_of_mem _ hd) hdi hds l (List.mem_cons_of_mem _ hl)
    obtain ⟨nodeID, addrs, st, k⟩ := u
    by_cases hi : i ≤ k
    · have hlt : ¬ k < i := UInt64.not_lt.2 hi
      cases st with
      | alive => exact absurd rfl (ha _ List.mem_cons_self hi)
      | suspect =>
        by_cases hs : s = .alive
        · have he : apply (some (s, i)) ⟨nodeID, addrs, .suspect, k⟩ = some (.suspect, i) := by
            simp [apply, update, hlt, hs]
          rw [run_cons, he, ih']
          simp [settle, hi, hs]
        · have he : apply (some (s, i)) ⟨nodeID, addrs, .suspect, k⟩ = some (s, i) := by
            simp [apply, update, hs]
          rw [run_cons, he, ih']
          simp [settle, hs]
      | dead =>
        have he : apply (some (s, i)) ⟨nodeID, addrs, .dead, k⟩ = some (.dead, i) := by
          simp [apply, update, hlt]
        have hl : ¬ ∃ l ∈ us, i ≤ l.incarnation ∧ l.status = .left := by
          rintro ⟨l, hl, hli, hls⟩
          exact hdl _ List.mem_cons_self hi rfl l (List.mem_cons_of_mem _ hl) hli hls
        rw [run_cons, he, ih']
        simp [settle, hi, hl]
      | left =>
        have he : apply (some (s, i)) ⟨nodeID, addrs, .left, k⟩ = some (.left, i) := by
          simp [apply, update, hlt]
        have hd : ¬ ∃ d ∈ us, i ≤ d.incarnation ∧ d.status = .dead := by
          rintro ⟨d, hd, hdi, hds⟩
          exact hdl d (List.mem_cons_of_mem _ hd) hdi hds _ List.mem_cons_self hi rfl
        rw [run_cons, he, ih']
        simp [settle, hi, hd]
      | unknown n =>
        have he : apply (some (s, i)) ⟨nodeID, addrs, .unknown n, k⟩ = some (s, i) := by
          simp [apply, update]
        rw [run_cons, he, ih']
        simp [settle]
    · rw [run_cons, apply_stale (UInt64.not_le.1 hi), ih']
      simp [settle, hi]

/-- In any two orders, such updates lead to the same record. -/
theorem OrderFree.run_eq {us us' : List MembershipUpdate} (h : OrderFree s i us)
    (hp : us'.Perm us) : run apply (some (s, i)) us' = run apply (some (s, i)) us := by
  have h' := h.perm hp
  by_cases hex : ∃ a ∈ us, i ≤ a.incarnation ∧ a.status = .alive
  · obtain ⟨a, ha, hai, has⟩ := hex
    have hmem := fun (vs : List MembershipUpdate) (hv : vs.Perm us) =>
      (h.perm hv).1 a (hv.mem_iff.2 ha) hai has
    by_cases hs : s = .alive
    · subst hs
      have hnoop : ∀ vs : List MembershipUpdate, vs.Perm us →
          run apply (some (.alive, i)) vs = some (.alive, i) := by
        refine fun vs hv => run_noop fun u hu => apply_noop fun hd => UInt64.not_le.1 fun hi => ?_
        simpa [hd] using hmem vs hv u hu hi
      rw [hnoop us' hp, hnoop us (.refl _)]
    · have hrev : ∀ vs : List MembershipUpdate, vs.Perm us →
          run apply (some (s, i)) vs = some (.alive, a.incarnation) := by
        refine fun vs hv => run_revived hai (fun u hu hi => ?_)
          ⟨a, hv.mem_iff.2 ha, hai, has⟩ hs
        simpa [hs] using hmem vs hv u hu hi
      rw [hrev us' hp, hrev us (.refl _)]
  · have hna : ∀ a ∈ us, i ≤ a.incarnation → a.status ≠ .alive :=
      fun a ha hai has => hex ⟨a, ha, hai, has⟩
    have hna' : ∀ a ∈ us', i ≤ a.incarnation → a.status ≠ .alive :=
      fun a ha => hna a (hp.mem_iff.1 ha)
    rw [run_settle hna (h.2 hna), run_settle hna' (h'.2 hna'), settle_perm hp]

/-- The ALIVE updates and the others. -/
def alives (us : List MembershipUpdate) : List MembershipUpdate :=
  us.filter fun u => u.status = .alive

def others (us : List MembershipUpdate) : List MembershipUpdate :=
  us.filter fun u => ¬ u.status = .alive

theorem mem_alives : u ∈ alives us ↔ u ∈ us ∧ u.status = .alive := by simp [alives]

theorem mem_others : u ∈ others us ↔ u ∈ us ∧ u.status ≠ .alive := by simp [others]

theorem alives_append_others (us : List MembershipUpdate) :
    (alives us ++ others us).Perm us := by
  have h := List.filter_append_perm (fun u : MembershipUpdate => decide (u.status = .alive)) us
  simpa [alives, others] using h

theorem others_append_alives (us : List MembershipUpdate) :
    (others us ++ alives us).Perm us := List.perm_append_comm.trans (alives_append_others us)

/-- The others do not revive the peer, and bring it down if a report among them is not
    stale. -/
theorem run_others (s : NodeStatus) (j : UInt64) (us : List MembershipUpdate) :
    ∃ s', run apply (some (s, j)) (others us) = some (s', j) ∧
      (s' = .alive ↔ s = .alive ∧ ∀ u ∈ us, ¬ (u.status.IsDown ∧ j ≤ u.incarnation)) := by
  obtain ⟨s', he, hs'⟩ := run_not_alive (s := s) (j := j) fun u hu _ =>
    (mem_others (u := u)).1 hu |>.2
  refine ⟨s', he, hs'.trans (and_congr_right fun _ => ⟨fun h u hu hd => ?_, fun h u hu => ?_⟩)⟩
  · exact h u (mem_others.2 ⟨hu, hd.1.ne_alive⟩) hd
  · exact h u (mem_others.1 hu).1

/-- ALIVE updates at the end revive the peer. -/
theorem run_others_alives {a : MembershipUpdate} (ha : a ∈ us) (hai : i ≤ a.incarnation)
    (has : a.status = .alive)
    (hd : s ≠ .alive ∨ ∃ u ∈ us, u.status.IsDown ∧ i ≤ u.incarnation) :
    ∃ k, run apply (some (s, i)) (others us ++ alives us) = some (.alive, k) := by
  obtain ⟨s', he, hs'⟩ := run_others s i us
  rw [run_append, he]
  refine run_alive (fun u hu => (mem_alives.1 hu).2) ⟨a, mem_alives.2 ⟨ha, has⟩, hai⟩ fun hs => ?_
  obtain ⟨h1, h2⟩ := hs'.1 hs
  rcases hd with hd | ⟨u, hu, hdu⟩
  · exact hd h1
  · exact h2 u hu hdu

/-! ### Orders that differ -/

section
variable (h : ∀ vs ws : List MembershipUpdate, vs.Perm us → ws.Perm us →
  run apply (some (s, i)) vs = run apply (some (s, i)) ws) {a : MembershipUpdate}
include h

/-- On an Alive peer, ALIVE updates are lost if they come before a report. -/
theorem not_isDown_of_run_eq (hs : s = .alive) (ha : a ∈ us) (hai : i ≤ a.incarnation)
    (has : a.status = .alive) (hu : u ∈ us) (hui : i ≤ u.incarnation) : ¬ u.status.IsDown := by
  intro hd
  subst hs
  obtain ⟨k, hk⟩ := run_others_alives (s := .alive) ha hai has (Or.inr ⟨u, hu, hd, hui⟩)
  obtain ⟨s', he, hs'⟩ := run_others .alive i us
  have hlost : run apply (some (.alive, i)) (alives us ++ others us) = some (s', i) := by
    rw [run_append, run_alive_of_alive fun u hu => (mem_alives.1 hu).2, he]
  have heq := h _ _ (alives_append_others us) (others_append_alives us)
  rw [hlost, hk] at heq
  simp only [Option.some.injEq, Prod.mk.injEq] at heq
  exact (hs'.1 heq.1).2 u hu ⟨hd, hui⟩

/-- The first ALIVE update after all reports decides the incarnation. -/
theorem incarnation_eq_of_run_eq (hs : s ≠ .alive) (ha : a ∈ us) (hai : i ≤ a.incarnation)
    (has : a.status = .alive) (hu : u ∈ us) (hui : i ≤ u.incarnation)
    (hus : u.status = .alive) : u.incarnation = a.incarnation := by
  have hfirst : ∀ b ∈ us, i ≤ b.incarnation → b.status = .alive →
      (others us ++ b :: (alives us).erase b).Perm us ∧
        run apply (some (s, i)) (others us ++ b :: (alives us).erase b) =
          some (.alive, b.incarnation) := by
    intro b hb hbi hbs
    have hp := (List.perm_cons_erase (mem_alives.2 ⟨hb, hbs⟩)).symm.append_left (others us)
    obtain ⟨s', he, hs'⟩ := run_others s i us
    refine ⟨hp.trans (others_append_alives us), ?_⟩
    rw [run_append, he]
    exact run_alive_cons (fun v hv => (mem_alives.1 (List.mem_of_mem_erase hv)).2) hbs hbi
      fun h => hs (hs'.1 h).1
  obtain ⟨hpa, hea⟩ := hfirst a ha hai has
  obtain ⟨hpu, heu⟩ := hfirst u hu hui hus
  have heq := h _ _ hpu hpa
  rw [hea, heu] at heq
  simpa using heq

/-- A report that is not older than an ALIVE update undoes it. -/
theorem incarnation_lt_of_run_eq (hs : s ≠ .alive) (ha : a ∈ us) (hai : i ≤ a.incarnation)
    (has : a.status = .alive) (hu : u ∈ us) (hd : u.status.IsDown) :
    u.incarnation < a.incarnation := by
  refine UInt64.not_le.1 fun hle => ?_
  obtain ⟨k, hk⟩ := run_others_alives ha hai has (Or.inl hs)
  obtain ⟨s', he, hs'⟩ := run_others .alive a.incarnation us
  have hundone : run apply (some (s, i)) (a :: (alives us).erase a ++ others us) =
      some (s', a.incarnation) := by
    rw [run_append, run_alive_cons (fun v hv => (mem_alives.1 (List.mem_of_mem_erase hv)).2)
      has hai hs, he]
  have hp := (List.perm_cons_erase (mem_alives.2 ⟨ha, has⟩)).symm.append_right (others us)
  have heq := h _ _ (hp.trans (alives_append_others us)) (others_append_alives us)
  rw [hundone, hk] at heq
  simp only [Option.some.injEq, Prod.mk.injEq] at heq
  exact (hs'.1 heq.1).2 u hu ⟨hd, hle⟩

/-- Of DEAD and LEFT, the last one stays. -/
theorem not_dead_left_of_run_eq (hna : ∀ a ∈ us, i ≤ a.incarnation → a.status ≠ .alive)
    {d l : MembershipUpdate} (hd : d ∈ us) (hdi : i ≤ d.incarnation) (hds : d.status = .dead)
    (hl : l ∈ us) (hli : i ≤ l.incarnation) : l.status ≠ .left := by
  intro hls
  have hlast : ∀ v ∈ us, i ≤ v.incarnation → (v.status = .dead ∨ v.status = .left) →
      (us.erase v ++ [v]).Perm us ∧
        run apply (some (s, i)) (us.erase v ++ [v]) = some (v.status, i) := by
    intro v hv hvi hvs
    refine ⟨List.perm_append_comm.trans (List.perm_cons_erase hv).symm, ?_⟩
    obtain ⟨s', he, -⟩ := run_not_alive (s := s) fun u hu => hna u (List.mem_of_mem_erase hu)
    rw [run_append, he, run_cons, run_nil]
    rcases hvs with hvs | hvs <;> simp [apply, update, hvs, UInt64.not_lt.2 hvi]
  obtain ⟨hpd, hed⟩ := hlast d hd hdi (Or.inl hds)
  obtain ⟨hpl, hel⟩ := hlast l hl hli (Or.inr hls)
  have heq := h _ _ hpd hpl
  rw [hed, hel, hds, hls] at heq
  simp at heq

/-- Updates that lead to the same record in every order are order-free. -/
theorem orderFree_of_run_eq : OrderFree s i us := by
  refine ⟨fun a ha hai has u hu hui => ?_, fun hna d hd hdi hds l hl hli =>
    not_dead_left_of_run_eq h hna hd hdi hds hl hli⟩
  split_ifs with hs
  · exact not_isDown_of_run_eq h hs ha hai has hu hui
  · exact ⟨incarnation_eq_of_run_eq h hs ha hai has hu hui,
      incarnation_lt_of_run_eq h hs ha hai has hu⟩

end

end Record

/-! ## Convergence -/

/-- The record after updates about a peer. -/
theorem view_run_applyUpdate {x : NodeID} {us : List MembershipUpdate}
    (hus : ∀ u ∈ us, u.nodeID = x) {m : Membership} (hx : x ≠ m.selfID) :
    (run Membership.applyUpdate m us).view x = run Record.apply (m.view x) us := by
  induction us generalizing m with
  | nil => rfl
  | cons u us ih =>
    rw [run_cons, run_cons, ih (fun v hv => hus v (List.mem_cons_of_mem _ hv)) (by simpa using hx),
      Membership.view_applyUpdate, if_pos ⟨(hus u List.mem_cons_self).symm, hx⟩]
    rfl

/-- **Gossip converges exactly on order-free updates.**  Two nodes with the same record
    `(s, i)` of a peer `x` end with the same record, in whatever orders they apply
    the updates `us` about `x`, if and only if these are order-free. -/
theorem gossip_converges_iff (x : NodeID) (s : NodeStatus) (i : UInt64)
    (us : List MembershipUpdate) (hus : ∀ u ∈ us, u.nodeID = x) (m m' : Membership)
    (hx : x ≠ m.selfID) (hx' : x ≠ m'.selfID) (hm : m.view x = some (s, i))
    (hm' : m'.view x = some (s, i)) :
    (∀ vs ws : List MembershipUpdate, vs.Perm us → ws.Perm us →
        (run Membership.applyUpdate m vs).view x = (run Membership.applyUpdate m' ws).view x) ↔
      Record.OrderFree s i us := by
  have hview : ∀ vs ws : List MembershipUpdate, vs.Perm us → ws.Perm us →
      ((run Membership.applyUpdate m vs).view x = (run Membership.applyUpdate m' ws).view x ↔
        run Record.apply (some (s, i)) vs = run Record.apply (some (s, i)) ws) := by
    intro vs ws hv hw
    rw [view_run_applyUpdate (fun u hu => hus u (hv.mem_iff.1 hu)) hx,
      view_run_applyUpdate (fun u hu => hus u (hw.mem_iff.1 hu)) hx', hm, hm']
  constructor
  · intro h
    exact Record.orderFree_of_run_eq fun vs ws hv hw => (hview vs ws hv hw).1 (h vs ws hv hw)
  · intro h vs ws hv hw
    rw [hview vs ws hv hw, h.run_eq hv, h.run_eq hw]

/-- A node `a` with the record `(s, i)` of a peer `b`. -/
def observer (s : NodeStatus) (i : UInt64) : Membership :=
  (Membership.start (ascii ['a']) ⟨[], [], []⟩ none).setInfo (ascii ['b'])
    ⟨ascii ['b'], ⟨[], [], []⟩, s, i⟩

/-- A report about `b`, and the ALIVE update that refutes it. -/
def refuted : List MembershipUpdate :=
  [.report (ascii ['b']) .alive 1, .report (ascii ['b']) .suspect 0]

/-- A suspected peer is revived in both orders. -/
theorem gossip_converges_suspect :
    Record.OrderFree .suspect 0 refuted ∧
      (run Membership.applyUpdate (observer .suspect 0) refuted).view (ascii ['b']) =
        (run Membership.applyUpdate (observer .suspect 0) refuted.reverse).view (ascii ['b']) := by
  have hfree : Record.OrderFree .suspect 0 refuted := by decide
  exact ⟨hfree, (gossip_converges_iff (ascii ['b']) .suspect 0 refuted (by decide)
    (observer .suspect 0) (observer .suspect 0) (by decide) (by decide) (by decide) (by decide)).2
    hfree refuted refuted.reverse (.refl _) (by decide)⟩

/-- On an Alive peer, the refutation is lost if it comes before the report. -/
theorem gossip_diverges_alive :
    refuted.reverse.Perm refuted ∧
    (run Membership.applyUpdate (observer .alive 0) refuted).view (ascii ['b']) =
      some (.suspect, 0) ∧
    (run Membership.applyUpdate (observer .alive 0) refuted.reverse).view (ascii ['b']) =
      some (.alive, 1) := by
  decide

end DistCache
