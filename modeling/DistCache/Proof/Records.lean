/-
  The registry and the queue of a node in every run, whatever messages arrive.

  * `Rewrites`, `step_rewrites`: what a transition can do to the record of a node;
  * `step_queue`: where an update in the queue comes from;
  * `Recorded`: every record is filed under its ID, the node's own record keeps
    incarnation 0, and the queue is about nodes with a record.
-/
import DistCache.Proof.Refute

namespace DistCache

open Lib

/-! ## Records -/

/-- What a transition of the node `self` can do to the record of `y`: nothing, register a
    peer, or write the status and, of a peer, the incarnation. -/
inductive Rewrites (self y : NodeID) : Option NodeInfo → Option NodeInfo → Prop
  | same (r : Option NodeInfo) : Rewrites self y r r
  | register (addrs : Addrs) (i : UInt64) : y ≠ self →
      Rewrites self y none (some ⟨y, addrs, .alive, i⟩)
  | write (info : NodeInfo) (status : NodeStatus) (i : UInt64) : (y = self → i = info.incarnation) →
      Rewrites self y (some info) (some { info with status, incarnation := i })

/-- A record keeps the ID it is filed under. -/
theorem Rewrites.id {self y : NodeID} {r r' : Option NodeInfo} (h : Rewrites self y r r')
    (hid : ∀ info, r = some info → info.id = y) : ∀ info, r' = some info → info.id = y := by
  intro info hinfo
  cases h with
  | same => exact hid info hinfo
  | register => rw [← Option.some.inj hinfo]
  | write info' =>
    rw [← Option.some.inj hinfo]
    exact hid info' rfl

namespace Membership

section
variable (m : Membership) (y : NodeID)

theorem rewrites_setInfo {x : NodeID} {info info' : NodeInfo}
    (h : Rewrites m.selfID x (some info) (some info')) (hl : m.registry.lookup x = some info) :
    Rewrites m.selfID y (m.registry.lookup y) ((m.setInfo x info').registry.lookup y) := by
  by_cases hy : y = x
  · subst hy
    rw [setInfo, Finmap.lookup_insert, hl]
    exact h
  · rw [setInfo, Finmap.lookup_insert_of_ne _ hy]
    exact .same _

theorem rewrites_register (u : MembershipUpdate) (hself : u.nodeID ≠ m.selfID)
    (hl : m.registry.lookup u.nodeID = none) :
    Rewrites m.selfID y (m.registry.lookup y) ((m.setInfo u.nodeID
      { NodeInfo.new u.nodeID u.addrs with incarnation := u.incarnation }).registry.lookup y) := by
  by_cases hy : y = u.nodeID
  · subst hy
    rw [setInfo, Finmap.lookup_insert, hl]
    exact .register u.addrs u.incarnation hself
  · rw [setInfo, Finmap.lookup_insert_of_ne _ hy]
    exact .same _

theorem applyUpdate_rewrites (u : MembershipUpdate) :
    Rewrites m.selfID y (m.registry.lookup y) ((m.applyUpdate u).registry.lookup y) := by
  have hout := applyUpdate_outcome m u
  generalize m.applyUpdate u = m' at hout ⊢
  cases hout with
  | same | refute => exact .same _
  | join hself hl hs => exact m.rewrites_register y u hself hl
  | @alive info hself hl hi hs hne =>
    exact m.rewrites_setInfo y (.write info .alive _ fun h => absurd h hself) hl
  | @suspect info hself hl hi hs hal =>
    exact m.rewrites_setInfo y (.write info .suspect info.incarnation fun _ => rfl) hl
  | @dead info hself hl hi hs hne =>
    exact m.rewrites_setInfo y (.write info .dead info.incarnation fun _ => rfl) hl
  | @left info hself hl hi hs =>
    exact m.rewrites_setInfo y (.write info .left info.incarnation fun _ => rfl) hl

theorem beginUpdate_rewrites (u : MembershipUpdate) :
    Rewrites m.selfID y (m.registry.lookup y) ((m.beginUpdate u).1.registry.lookup y) := by
  have hb := beginUpdate_begins m u
  generalize m.beginUpdate u = r at hb ⊢
  cases hb with
  | same | refute | suspect | dead => exact .same _
  | join hself hl hs => exact m.rewrites_register y u hself hl
  | @alive info hself hl =>
    exact m.rewrites_setInfo y (.write info .alive info.incarnation fun _ => rfl) hl
  | @left info hself hl =>
    exact m.rewrites_setInfo y (.write info .left info.incarnation fun _ => rfl) hl

theorem resumeUpdate_rewrites {u : MembershipUpdate} (hself : u.nodeID ≠ m.selfID) (todo : Todo) :
    Rewrites m.selfID y (m.registry.lookup y) ((m.resumeUpdate u todo).1.registry.lookup y) := by
  have hr := resumeUpdate_resumes m u todo
  generalize m.resumeUpdate u todo = r at hr ⊢
  cases hr with
  | gone | join | queue | cancel | emit => exact .same _
  | @stamp info hl =>
    exact m.rewrites_setInfo y (.write info info.status _ fun h => absurd h hself) hl
  | @suspect info hl =>
    exact m.rewrites_setInfo y (.write info .suspect info.incarnation fun _ => rfl) hl
  | @bury info hl =>
    exact m.rewrites_setInfo y (.write info .dead info.incarnation fun _ => rfl) hl

theorem setSuspect_rewrites (x : NodeID) :
    Rewrites m.selfID y (m.registry.lookup y) ((m.setSuspect x).registry.lookup y) := by
  rcases m.setSuspect_cases x with ⟨h, -⟩ | ⟨info, hl, h⟩
  · rw [h]; exact .same _
  · rw [h]
    exact m.rewrites_setInfo y (.write info .suspect info.incarnation fun _ => rfl) hl

theorem markDead_rewrites (x : NodeID) :
    Rewrites m.selfID y (m.registry.lookup y) ((m.markDead x).registry.lookup y) := by
  rcases m.markDead_cases x with ⟨h, -⟩ | ⟨info, hl, -, h⟩
  · rw [h]; exact .same _
  · rw [h]
    exact m.rewrites_setInfo y (.write info .dead info.incarnation fun _ => rfl) hl

theorem callback_rewrites (x : NodeID) :
    Rewrites m.selfID y (m.registry.lookup y) ((m.callback x).registry.lookup y) := by
  unfold callback
  split_ifs
  · exact markDead_rewrites { m with fired := m.fired.erase x } y x
  · exact .same _

theorem leave_rewrites :
    Rewrites m.selfID y (m.registry.lookup y) (m.leave.registry.lookup y) := by
  rcases hl : m.registry.lookup m.selfID with _ | info
  · have hreg : m.leave.registry = m.registry := by simp [leave, queueUpdate, hl]
    rw [hreg]
    exact .same _
  · have hreg : m.leave.registry = (m.setInfo m.selfID { info with status := .left }).registry := by
      simp [leave, queueUpdate, setInfo, hl]
    rw [hreg]
    exact m.rewrites_setInfo y (.write info .left info.incarnation fun _ => rfl) hl

end

/-! ## The queue -/

section
variable {m : Membership} {u : MembershipUpdate} {x : NodeID} {q : QueuedUpdate}

/-- Before `applyUpdate` takes the lock, it queues refutations only. -/
theorem mem_queue_beginUpdate (h : q ∈ (m.beginUpdate u).1.updateQueue) :
    q ∈ m.updateQueue ∨ m.Refuted u ∧ q.update = (m.refute u).selfAlive := by
  have hb := beginUpdate_begins m u
  generalize m.beginUpdate u = r at hb h
  cases hb with
  | refute hself hs =>
    rcases mem_coalesce h with hq | hq
    · exact Or.inr ⟨⟨hself, hs⟩, hq⟩
    · exact Or.inl hq
  | _ => exact Or.inl h

/-- Later it queues the update itself, about a node that has a record. -/
theorem mem_queue_resumeUpdate {todo : Todo} (h : q ∈ (m.resumeUpdate u todo).1.updateQueue) :
    q ∈ m.updateQueue ∨ u.nodeID ∈ m.registry ∧ q.update = u := by
  have hr := resumeUpdate_resumes m u todo
  generalize m.resumeUpdate u todo = r at hr h
  cases hr with
  | queue hl =>
    rcases mem_coalesce h with hq | hq
    · exact Or.inr ⟨Finmap.lookup_isSome.1 (by rw [hl]; rfl), hq⟩
    · exact Or.inl hq
  | _ => exact Or.inl h

theorem mem_queue_setSuspect (h : q ∈ (m.setSuspect x).updateQueue) :
    q ∈ m.updateQueue ∨ x ∈ m.registry ∧ ∃ i, q.update = .report x .suspect i := by
  rcases m.setSuspect_cases x with ⟨he, -⟩ | ⟨info, hl, he⟩
  · rw [he] at h
    exact Or.inl h
  · rw [he] at h
    rcases mem_coalesce h with hq | hq
    · exact Or.inr ⟨Finmap.lookup_isSome.1 (by rw [hl]; rfl), _, hq⟩
    · exact Or.inl hq

theorem mem_queue_markDead (h : q ∈ (m.markDead x).updateQueue) :
    q ∈ m.updateQueue ∨ x ∈ m.registry ∧ ∃ i, q.update = .report x .dead i := by
  rcases m.markDead_cases x with ⟨he, -⟩ | ⟨info, hl, -, he⟩
  · rw [he] at h
    exact Or.inl h
  · rw [he] at h
    rcases mem_coalesce h with hq | hq
    · exact Or.inr ⟨Finmap.lookup_isSome.1 (by rw [hl]; rfl), _, hq⟩
    · exact Or.inl hq

theorem mem_queue_callback (h : q ∈ (m.callback x).updateQueue) :
    q ∈ m.updateQueue ∨ x ∈ m.registry ∧ ∃ i, q.update = .report x .dead i := by
  unfold callback at h
  split_ifs at h
  · exact mem_queue_markDead (m := { m with fired := m.fired.erase x }) h
  · exact Or.inl h

end

end Membership

namespace Swim

section
variable (resolve : GoString → Option UDPAddr) {s : Swim} (hpeers : s.Peers)
include hpeers

theorem step_rewrites (a : Act) (y : NodeID) :
    Rewrites s.m.selfID y (s.m.registry.lookup y) ((s.step resolve a).m.registry.lookup y) := by
  have heff := step_effect resolve s a
  generalize s.step resolve a = s' at heff ⊢
  cases heff with
  | apply => exact s.m.beginUpdate_rewrites y _
  | resume hrecv =>
    exact s.m.resumeUpdate_rewrites y (hpeers.pending _ _ (by rw [hrecv]; rfl)).1 _
  | @ack _ msg =>
    obtain ⟨_, _, h⟩ := s.m.handleAck_eq msg
    dsimp only
    rw [h]
    exact .same _
  | mark => exact s.m.setSuspect_rewrites y _
  | fire t =>
    obtain ⟨_, _, h⟩ := s.m.fire_eq t
    dsimp only
    rw [h]
    exact .same _
  | callback x => exact s.m.callback_rewrites y x
  | leave => exact s.m.leave_rewrites y
  | halt ord =>
    obtain ⟨_, h⟩ := s.m.stopTimers_eq ord
    dsimp only
    rw [h]
    exact .same _
  | _ => exact .same _

/-- A node with a record keeps one. -/
theorem mem_registry_step (a : Act) {y : NodeID} (h : y ∈ s.m.registry) :
    y ∈ (s.step resolve a).m.registry := by
  have hrw := step_rewrites resolve hpeers a y
  rw [← Finmap.lookup_isSome] at h ⊢
  generalize s.m.registry.lookup y = r at hrw h
  generalize (s.step resolve a).m.registry.lookup y = r' at hrw ⊢
  cases hrw with
  | same => exact h
  | register | write => rfl

/-- Where an update in the queue after a transition comes from: it was queued before, it is
    a refutation, or it is about a node with a record, and no ALIVE update about the node
    itself. -/
theorem step_queue (a : Act) {q : QueuedUpdate} (h : q ∈ (s.step resolve a).m.updateQueue) :
    (∃ q' ∈ s.m.updateQueue, q'.update = q.update) ∨ World.refutation s a = some q.update ∨
      (q.update.nodeID = s.m.selfID ∨ q.update.nodeID ∈ (s.step resolve a).m.registry) ∧
        (q.update.status = .alive → q.update.nodeID ≠ s.m.selfID) := by
  have heff := step_effect resolve s a
  have hkept : ∀ x, x ∈ s.m.registry → x ∈ (s.step resolve a).m.registry :=
    fun x => mem_registry_step resolve hpeers a
  have hreport : ∀ x st i, x ∈ s.m.registry → st ≠ .alive → q.update = .report x st i →
      (q.update.nodeID = s.m.selfID ∨ q.update.nodeID ∈ (s.step resolve a).m.registry) ∧
        (q.update.status = .alive → q.update.nodeID ≠ s.m.selfID) := by
    intro x st i hx hst hq
    rw [hq]
    exact ⟨Or.inr (hkept x hx), fun h => absurd h hst⟩
  generalize s.step resolve a = s' at heff h hkept hreport ⊢
  cases heff with
  | @apply u rest msg remote hrecv =>
    rcases Membership.mem_queue_beginUpdate h with hq | ⟨hu, hq⟩
    · exact Or.inl ⟨q, hq, rfl⟩
    · right; left
      simp only [World.refutation, hrecv]
      rw [if_pos ⟨hu.1, hu.2⟩, hq, hu.applyUpdate]
  | @resume todo u rest msg remote hrecv =>
    rcases Membership.mem_queue_resumeUpdate h with hq | ⟨hu, hq⟩
    · exact Or.inl ⟨q, hq, rfl⟩
    · right; right
      rw [hq]
      exact ⟨Or.inr (hkept _ hu), fun _ => (hpeers.pending todo u (by rw [hrecv]; rfl)).1⟩
  | ping => exact Or.inl (Membership.mem_drained h).2
  | pingReq | tick => exact Or.inl (Membership.mem_drained (m := s.m.expectAck _) h).2
  | @ack _ msg =>
    obtain ⟨_, _, he⟩ := s.m.handleAck_eq msg
    dsimp only at h
    rw [he] at h
    exact Or.inl ⟨q, h, rfl⟩
  | @mark x hping =>
    rcases Membership.mem_queue_setSuspect h with hq | ⟨hx, i, hq⟩
    · exact Or.inl ⟨q, hq, rfl⟩
    · exact Or.inr (Or.inr (hreport x .suspect i hx (by simp) hq))
  | fire t =>
    obtain ⟨_, _, he⟩ := s.m.fire_eq t
    dsimp only at h
    rw [he] at h
    exact Or.inl ⟨q, h, rfl⟩
  | callback x =>
    rcases Membership.mem_queue_callback h with hq | ⟨hx, i, hq⟩
    · exact Or.inl ⟨q, hq, rfl⟩
    · exact Or.inr (Or.inr (hreport x .dead i hx (by simp) hq))
  | leave =>
    rcases Membership.mem_coalesce h with hq | hq
    · rw [hq]
      exact Or.inr (Or.inr ⟨Or.inl rfl, fun h => by cases h⟩)
    · exact Or.inl ⟨q, hq, rfl⟩
  | halt ord =>
    obtain ⟨_, he⟩ := s.m.stopTimers_eq ord
    dsimp only at h
    rw [he] at h
    exact Or.inl ⟨q, h, rfl⟩
  | _ => exact Or.inl ⟨q, h, rfl⟩

end

/-! ## The invariant -/

/-- Every record is filed under its ID, the node's own record keeps incarnation 0, and the
    queue is about nodes with a record. -/
structure Recorded (m : Membership) : Prop where
  id : ∀ x info, m.registry.lookup x = some info → info.id = x
  own : ∃ info, m.registry.lookup m.selfID = some info ∧ info.incarnation = 0
  queue : ∀ q ∈ m.updateQueue, q.update.nodeID ∈ m.registry

theorem Recorded.self_mem {m : Membership} (h : Recorded m) : m.selfID ∈ m.registry := by
  obtain ⟨info, hl, -⟩ := h.own
  exact Finmap.lookup_isSome.1 (by rw [hl]; rfl)

theorem start_recorded (selfID : NodeID) (addrs : Addrs) (injector : Option FaultInjector) :
    Recorded (Membership.start selfID addrs injector) := by
  have hreg : (Membership.start selfID addrs injector).registry =
      (∅ : NodeRegistry).insert selfID (.new selfID addrs) := rfl
  refine ⟨fun x info hl => ?_, ⟨.new selfID addrs, ?_, rfl⟩, fun q hq => ?_⟩
  · rw [hreg] at hl
    by_cases hx : x = selfID
    · rw [hx, Finmap.lookup_insert] at hl
      obtain rfl := Option.some.inj hl
      exact hx.symm
    · rw [Finmap.lookup_insert_of_ne _ hx, Finmap.lookup_empty] at hl
      cases hl
  · exact Finmap.lookup_insert _
  · rw [List.mem_singleton.1 hq, hreg]
    exact Finmap.mem_insert.2 (Or.inl rfl)

theorem Recorded.step (resolve : GoString → Option UDPAddr) {s : Swim} (hpeers : s.Peers)
    (h : Recorded s.m) (a : Act) : Recorded (s.step resolve a).m := by
  have hself := step_selfID resolve s a
  refine ⟨fun x => (step_rewrites resolve hpeers a x).id (h.id x), ?_, fun q hq => ?_⟩
  · obtain ⟨info, hl, hinc⟩ := h.own
    have hrw := step_rewrites resolve hpeers a s.m.selfID
    rw [hself]
    rw [hl] at hrw
    generalize (s.step resolve a).m.registry.lookup s.m.selfID = r at hrw ⊢
    cases hrw with
    | same => exact ⟨info, rfl, hinc⟩
    | write _ status i hi => exact ⟨_, rfl, (hi rfl).trans hinc⟩
  · have hown := mem_registry_step resolve hpeers a h.self_mem
    rcases step_queue resolve hpeers a hq with ⟨q', hq', he⟩ | hr | ⟨hx | hx, -⟩
    · rw [← he]
      exact mem_registry_step resolve hpeers a (h.queue q' hq')
    · obtain ⟨u, _, _, _, -, -, -, he⟩ := refutation_eq_some hr
      have hid : q.update.nodeID = s.m.selfID := by rw [he]; rfl
      rw [hid]
      exact hown
    · rw [hx]
      exact hown
    · exact hx

theorem recorded_of_run (resolve : GoString → Option UDPAddr) (selfID : NodeID) (addrs : Addrs)
    (injector : Option FaultInjector) (acts : List Act) :
    Recorded (run (Swim.step resolve) (Swim.start selfID addrs injector) acts).m :=
  (run_inv (I := fun s : Swim => s.Peers ∧ Recorded s.m)
    (fun _ a h => ⟨h.1.step resolve a, h.2.step resolve h.1 a⟩)
    ⟨start_peers selfID addrs injector, start_recorded selfID addrs injector⟩ acts).2

end Swim

end DistCache
