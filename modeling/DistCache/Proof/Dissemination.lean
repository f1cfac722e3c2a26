/-
  What a node tells the others: the changes it has learned, and itself.

  * Only the update that registers a node is queued; an update that changes the status of a
    known node is passed on if the queue happens to have one like it.
  * A node describes itself in `Start`, `JoinCluster` and `refute` with its incarnation,
    and in the list of `handleJoin` with that of its own record, which is always 0.
-/
import DistCache.Proof.Records

namespace DistCache

open Lib

/-! ## Changes -/

/-- The queue has an update about `x` with the given status, at least as new as `i`. -/
def Membership.Queues (m : Membership) (x : NodeID) (status : Option NodeStatus) (i : UInt64) : Prop :=
  ∃ q ∈ m.updateQueue, q.update.nodeID = x ∧ some q.update.status = status ∧
    i ≤ q.update.incarnation

instance (m : Membership) (x : NodeID) (status : Option NodeStatus) (i : UInt64) :
    Decidable (m.Queues x status i) :=
  inferInstanceAs (Decidable (∃ q ∈ m.updateQueue, q.update.nodeID = x ∧
    some q.update.status = status ∧ i ≤ q.update.incarnation))

/-- An update that changes the status of a record leaves its own status. -/
theorem Record.status_update {r : Record} {st : NodeStatus} {i : UInt64}
    (h : (r.update st i).map Prod.fst ≠ r.map Prod.fst) :
    (r.update st i).map Prod.fst = some st := by
  rcases r with _ | ⟨s, j⟩
  · by_cases hs : st = .alive
    · rw [hs]; rfl
    · simp [update, hs] at h
  · by_cases hj : i < j
    · simp [update, hj] at h
    · cases st with
      | alive | suspect =>
        by_cases hs : s = .alive
        · simp [update, hj, hs] at h ⊢
        · simp [update, hj, hs] at h ⊢
      | dead | left => simp [update, hj]
      | unknown code => simp [update, hj] at h

theorem Membership.status_applyUpdate {m : Membership} {u : MembershipUpdate}
    (h : ((m.applyUpdate u).view u.nodeID).map Prod.fst ≠ (m.view u.nodeID).map Prod.fst) :
    ((m.applyUpdate u).view u.nodeID).map Prod.fst = some u.status := by
  rw [view_applyUpdate] at h ⊢
  split_ifs at h ⊢ with hu
  · exact Record.status_update h
  · exact absurd rfl h

/-- **When a change is passed on.**  In every reachable state of a node, an update about a peer
    that registers it or changes its status leaves an update with the new status in the queue,
    at least as new, if and only if it registers the peer, or such an update was queued
    before. -/
theorem change_queued_iff (resolve : GoString → Option UDPAddr) (selfID : NodeID) (addrs : Addrs)
    (injector : Option FaultInjector) (acts : List Swim.Act) (u : MembershipUpdate) :
    let m := (run (Swim.step resolve) (.start selfID addrs injector) acts).m
    u.nodeID ≠ m.selfID →
    ((m.applyUpdate u).view u.nodeID).map Prod.fst ≠ (m.view u.nodeID).map Prod.fst →
    ((m.applyUpdate u).Queues u.nodeID (((m.applyUpdate u).view u.nodeID).map Prod.fst)
        u.incarnation ↔
      m.view u.nodeID = none ∨ m.Queues u.nodeID (some u.status) u.incarnation) := by
  intro m hself hchange
  have hrec : Swim.Recorded m := Swim.recorded_of_run resolve selfID addrs injector acts
  rw [Membership.status_applyUpdate hchange]
  have hout := m.applyUpdate_outcome u
  have hknown : ∀ info, m.registry.lookup u.nodeID = some info → m.view u.nodeID ≠ none := by
    intro info hl
    rw [m.view_eq_some _ hl]
    exact Option.some_ne_none _
  generalize m.applyUpdate u = m' at hout hchange ⊢
  cases hout with
  | same => exact absurd rfl hchange
  | refute he => exact absurd he hself
  | join _ hl hs =>
    -- the queue has nothing about a node without a record
    refine iff_of_true ⟨⟨u, 0⟩, Membership.exists_mem_coalesce fun q hq hid => ?_, rfl, rfl, UInt64.le_refl _⟩
      (Or.inl (m.view_eq_none _ hl))
    have hmem := hrec.queue q hq
    rw [hid, ← Finmap.lookup_isSome, hl] at hmem
    cases hmem
  | alive _ hl | suspect _ hl | dead _ hl | left _ hl =>
    exact ⟨fun h => Or.inr h, fun h => h.resolve_left (hknown _ hl)⟩

/-- Node `a` reads updates from `b`, and applies `n` of them. -/
def hears (us : List MembershipUpdate) (n : ℕ) : List Swim.Act :=
  .arrive ⟨ascii ['b'], ⟨.ack, ascii ['b'], [], [], 0, us⟩⟩ :: .read ::
    (List.replicate n Swim.applies).flatten

/-- The update that registers `b` is queued. -/
theorem change_queued_registered :
    ((Membership.start (ascii ['a']) ⟨[], [], []⟩ none).applyUpdate
        (.report (ascii ['b']) .alive 5)).Queues (ascii ['b']) (some .alive) 5 :=
  (change_queued_iff some (ascii ['a']) ⟨[], [], []⟩ none [] (.report (ascii ['b']) .alive 5)
    (by decide) (by decide +kernel)).2 (Or.inl (by decide +kernel))

/-- A known node becomes Suspect by gossip, and the queue does not say so. -/
theorem change_not_queued :
    let m := (run (Swim.step some) (.start (ascii ['a']) ⟨[], [], []⟩ none)
      (hears [.report (ascii ['b']) .alive 0] 1)).m
    m.view (ascii ['b']) = some (.alive, 0) ∧
      (m.applyUpdate (.report (ascii ['b']) .suspect 0)).view (ascii ['b']) = some (.suspect, 0) ∧
      ¬ (m.applyUpdate (.report (ascii ['b']) .suspect 0)).Queues (ascii ['b']) (some .suspect) 0 := by
  decide +kernel

/-! ## Self-descriptions -/

namespace Swim

/-- The ALIVE updates about itself that a node makes in a transition: in `JoinCluster`, in the
    list of `handleJoin`, and in `refute`. -/
def selfDescriptions (s : Swim) : Act → List MembershipUpdate
  | .joinCluster seedAddrs => if seedAddrs = [] then [] else [s.m.selfAlive]
  | .dispatch ord =>
    match s.recv with
    | .applying [] msg _ =>
      if msg.type = .join then
        ((s.m.getAll ord).map NodeInfo.update).filter fun u =>
          u.nodeID = s.m.selfID ∧ u.status = .alive
      else []
    | _ => []
  | a => (World.refutation s a).toList

section
variable (resolve : GoString → Option UDPAddr) (s : Swim)

/-- The updates that a transition can put into a message: those of the queue, the list of
    `handleJoin`, and the update of `JoinCluster`. -/
inductive Carried : Act → MembershipUpdate → Prop
  | queued {a : Act} {q : QueuedUpdate} : q ∈ s.m.updateQueue → Carried a q.update
  | record {ord : RangeOrder NodeID NodeInfo} {msg : SwimMessage} {remote : UDPAddr}
      {u : MembershipUpdate} : s.recv = .applying [] msg remote → msg.type = .join →
      u ∈ (s.m.getAll ord).map NodeInfo.update → Carried (.dispatch ord) u
  | self {seedAddrs : List GoString} : seedAddrs ≠ [] →
      Carried (.joinCluster seedAddrs) s.m.selfAlive

theorem carried_drained (a : Act) : ∀ u ∈ s.m.drainUpdates.1, Carried s a u :=
  (Membership.drainUpdates_queued fun _ hq => .queued hq).1

theorem step_carried (a : Act) :
    ∃ ds, (s.step resolve a).sent = s.sent ++ ds ∧ ∀ d ∈ ds, ∀ u ∈ d.msg.updates, Carried s a u := by
  have hnone : ∀ s' : Swim, s'.sent = s.sent →
      ∃ ds, s'.sent = s.sent ++ ds ∧ ∀ d ∈ ds, ∀ u ∈ d.msg.updates, Carried s a u :=
    fun s' h => ⟨[], by rw [h, List.append_nil], fun d hd => absurd hd List.not_mem_nil⟩
  have hone : ∀ (s' : Swim) (d : Datagram), s'.sent = s.sent ++ [d] →
      (∀ u ∈ d.msg.updates, Carried s a u) →
      ∃ ds, s'.sent = s.sent ++ ds ∧ ∀ d ∈ ds, ∀ u ∈ d.msg.updates, Carried s a u :=
    fun s' d h hd => ⟨[d], h, fun d' hd' => List.mem_singleton.1 hd' ▸ hd⟩
  by_cases hdispatch : ∃ ord, a = .dispatch ord
  · -- only the type of the message tells what is sent
    obtain ⟨ord, rfl⟩ := hdispatch
    simp only [step, dispatch]
    split
    · rename_i msg remote hrecv
      split
      · exact hone _ _ rfl (carried_drained s _)
      · exact hnone _ rfl
      · unfold handlePingReq
        split
        · exact hnone _ rfl
        · split
          · exact hnone _ rfl
          · rename_i ch m d hsend
            obtain ⟨udpAddr, -, rfl, rfl, rfl⟩ := sendPing_eq_some resolve hsend
            exact hone _ _ rfl (carried_drained s _)
      · rename_i hjoin
        exact hone _ _ rfl fun u hu => .record hrecv hjoin hu
      · exact hnone _ rfl
    · exact hnone _ rfl
  · have heff := step_effect resolve s a
    generalize s.step resolve a = s' at heff ⊢
    cases heff with
    | ping | pingReq | join => exact absurd ⟨_, rfl⟩ hdispatch
    | relay => exact hone _ _ rfl fun u hu => absurd hu List.not_mem_nil
    | tick => exact hone _ _ rfl (carried_drained s _)
    | @pingReqs ord shuffle targetID ds hping hds =>
      refine ⟨ds, rfl, fun d hd u hu => ?_⟩
      rw [hds d hd] at hu
      exact absurd hu List.not_mem_nil
    | joinCluster seedAddrs =>
      refine ⟨_, rfl, fun d hd u hu => ?_⟩
      obtain ⟨addr, haddr, hres⟩ := List.mem_filterMap.1 hd
      obtain ⟨udpAddr, -, rfl⟩ := Option.map_eq_some_iff.1 hres
      rw [List.mem_singleton.1 hu]
      exact .self (List.ne_nil_of_mem haddr)
    | _ => exact hnone _ rfl

/-- **No other ALIVE update about itself is made**: one that is queued or sent after a
    transition was queued before, or is among `selfDescriptions`. -/
theorem mem_selfDescriptions (hpeers : s.Peers) (a : Act) :
    ∃ ds, (s.step resolve a).sent = s.sent ++ ds ∧
      ∀ u : MembershipUpdate, u.nodeID = s.m.selfID → u.status = .alive →
        ((∃ q ∈ (s.step resolve a).m.updateQueue, q.update = u) ∨ ∃ d ∈ ds, u ∈ d.msg.updates) →
        (∃ q ∈ s.m.updateQueue, q.update = u) ∨ u ∈ s.selfDescriptions a := by
  obtain ⟨ds, hsent, hds⟩ := step_carried resolve s a
  refine ⟨ds, hsent, ?_⟩
  rintro u hself halive (⟨q, hq, rfl⟩ | ⟨d, hd, hu⟩)
  · rcases step_queue resolve hpeers a hq with hq | hr | ⟨-, hne⟩
    · exact Or.inl hq
    · right
      obtain ⟨_, _, _, _, rfl, -⟩ := refutation_eq_some hr
      exact Option.mem_toList.2 hr
    · exact absurd hself (hne halive)
  · have hc := hds d hd u hu
    cases hc with
    | queued hq => exact Or.inl ⟨_, hq, rfl⟩
    | record hrecv hjoin hmem =>
      right
      simp only [selfDescriptions, hrecv, if_pos hjoin]
      exact List.mem_filter.2 ⟨hmem, by simp [hself, halive]⟩
    | self hne =>
      right
      simp only [selfDescriptions, if_neg hne]
      exact List.mem_singleton_self _

end

/-- A node describes itself by its own record in the list of `handleJoin`. -/
theorem Recorded.mem_getAll_self {s : Swim} (h : Recorded s.m) (ord : RangeOrder NodeID NodeInfo)
    {u : MembershipUpdate} (hself : u.nodeID = s.m.selfID) :
    u ∈ (s.m.getAll ord).map NodeInfo.update ↔
      ∃ info, s.m.registry.lookup s.m.selfID = some info ∧ u = info.update := by
  constructor
  · intro hu
    obtain ⟨info, hinfo, rfl⟩ := List.mem_map.1 hu
    obtain ⟨⟨x, info'⟩, he, rfl⟩ := List.mem_map.1 hinfo
    have hl := (ord.mem_list _).1 he
    have hx : x = s.m.selfID := (h.id x _ hl).symm.trans hself
    exact ⟨_, hx ▸ hl, rfl⟩
  · rintro ⟨info, hl, rfl⟩
    exact List.mem_map_of_mem (List.mem_map.2 ⟨⟨_, info⟩, (ord.mem_list _).2 hl, rfl⟩)

/-- The node answers a join with the membership list. -/
def Lists (s : Swim) (a : Act) : Prop :=
  ∃ ord msg remote, a = .dispatch ord ∧ s.recv = .applying [] msg remote ∧ msg.type = .join

/-- In the list of `handleJoin`, the node describes itself by its own record, if that is
    Alive. -/
theorem Recorded.selfDescriptions_lists {s : Swim} (h : Recorded s.m) {a : Act} (ha : s.Lists a)
    {u : MembershipUpdate} :
    u ∈ s.selfDescriptions a ↔
      ∃ info, s.m.registry.lookup s.m.selfID = some info ∧ info.status = .alive ∧
        u = info.update := by
  obtain ⟨ord, msg, remote, rfl, hrecv, hjoin⟩ := ha
  simp only [selfDescriptions, hrecv, if_pos hjoin, List.mem_filter, decide_eq_true_eq]
  constructor
  · rintro ⟨hu, hself, halive⟩
    obtain ⟨info, hl, rfl⟩ := (h.mem_getAll_self ord hself).1 hu
    exact ⟨info, hl, halive, rfl⟩
  · rintro ⟨info, hl, halive, rfl⟩
    have hself : info.update.nodeID = s.m.selfID := h.id _ _ hl
    exact ⟨(h.mem_getAll_self ord hself).2 ⟨info, hl, rfl⟩, hself, halive⟩

section
variable (resolve : GoString → Option UDPAddr) {s : Swim} {a : Act}

theorem lists_incarnation (ha : s.Lists a) : (s.step resolve a).m.incarnation = s.m.incarnation := by
  obtain ⟨ord, msg, remote, rfl, hrecv, hjoin⟩ := ha
  simp only [step, dispatch, hrecv, hjoin]

theorem refutation_current {u : MembershipUpdate} (hu : World.refutation s a = some u) :
    u.incarnation = (s.step resolve a).m.incarnation := by
  obtain ⟨update, rest, msg, remote, rfl, hrecv, href, rfl⟩ := refutation_eq_some hu
  rw [step_m_of_refuted resolve hrecv href]
  rfl

/-- Everywhere else, the node describes itself with its incarnation. -/
theorem selfDescriptions_current (ha : ¬ s.Lists a) :
    ∀ u ∈ s.selfDescriptions a, u.incarnation = (s.step resolve a).m.incarnation := by
  intro u hu
  cases a with
  | joinCluster seedAddrs =>
    simp only [selfDescriptions] at hu
    split_ifs at hu
    · exact absurd hu List.not_mem_nil
    · rw [List.mem_singleton.1 hu]
      rfl
  | dispatch ord =>
    simp only [selfDescriptions] at hu
    split at hu
    · rename_i msg remote hrecv
      rw [if_neg fun hjoin => ha ⟨ord, msg, remote, rfl, hrecv, hjoin⟩] at hu
      exact absurd hu List.not_mem_nil
    · exact absurd hu List.not_mem_nil
  | _ => exact refutation_current resolve (Option.mem_toList.1 hu)

end

theorem Recorded.current_iff (resolve : GoString → Option UDPAddr) {s : Swim} (h : Recorded s.m)
    (a : Act) :
    (∀ u ∈ s.selfDescriptions a, u.incarnation = (s.step resolve a).m.incarnation) ↔
      (s.Lists a → (s.m.view s.m.selfID).map Prod.fst = some .alive → s.m.incarnation = 0) := by
  by_cases ha : s.Lists a
  · obtain ⟨info, hl, hinc⟩ := h.own
    have hview := s.m.view_eq_some _ hl
    constructor
    · intro hcur _ halive
      rw [hview] at halive
      have hu := hcur info.update
        ((h.selfDescriptions_lists ha).2 ⟨info, hl, Option.some.inj halive, rfl⟩)
      rw [lists_incarnation resolve ha] at hu
      exact hu.symm.trans hinc
    · intro hzero u hu
      obtain ⟨info', hl', halive, rfl⟩ := (h.selfDescriptions_lists ha).1 hu
      obtain rfl : info = info' := Option.some.inj (hl.symm.trans hl')
      rw [lists_incarnation resolve ha, hzero ha (by rw [hview, ← halive]; rfl)]
      exact hinc
  · exact iff_of_true (selfDescriptions_current resolve ha) fun h => absurd h ha

/-- **When a node describes itself truly.**  The ALIVE update of `Start` carries the incarnation.
    In every run, the other ALIVE updates about itself that get into the queue or into a
    message are among `selfDescriptions`, and these carry the incarnation of the node, unless
    they are in the list of `handleJoin`, which has 0, and the incarnation is another. -/
theorem self_description_current_iff (resolve : GoString → Option UDPAddr) (selfID : NodeID)
    (addrs : Addrs) (injector : Option FaultInjector) :
    (∀ q ∈ (start selfID addrs injector).m.updateQueue,
      q.update.incarnation = (start selfID addrs injector).m.incarnation) ∧
    ∀ acts a,
      let s := run (step resolve) (start selfID addrs injector) acts
      (∃ ds, (s.step resolve a).sent = s.sent ++ ds ∧
        ∀ u : MembershipUpdate, u.nodeID = s.m.selfID → u.status = .alive →
          ((∃ q ∈ (s.step resolve a).m.updateQueue, q.update = u) ∨ ∃ d ∈ ds, u ∈ d.msg.updates) →
          (∃ q ∈ s.m.updateQueue, q.update = u) ∨ u ∈ s.selfDescriptions a) ∧
      ((∀ u ∈ s.selfDescriptions a, u.incarnation = (s.step resolve a).m.incarnation) ↔
        (s.Lists a → (s.m.view s.m.selfID).map Prod.fst = some .alive → s.m.incarnation = 0)) := by
  constructor
  · intro q hq
    rw [List.mem_singleton.1 hq]
    rfl
  · intro acts a s
    have hrec : Recorded s.m := recorded_of_run resolve selfID addrs injector acts
    exact ⟨mem_selfDescriptions resolve s (run_peers resolve selfID addrs injector acts) a,
      hrec.current_iff resolve a⟩

/-- Node `a` reads a join of `b`. -/
def readsJoin : List Act :=
  [.arrive ⟨ascii ['b'], ⟨.join, ascii ['b'], [], [], 0, []⟩⟩, .read]

/-- The answer of a node that has refuted nothing. -/
theorem self_description_current_unrefuted :
    let s := run (step some) (start (ascii ['a']) ⟨[], [], []⟩ none) readsJoin
    let a := Act.dispatch (.listing [⟨ascii ['a'], .new (ascii ['a']) ⟨[], [], []⟩⟩])
    (⟨ascii ['a'], ⟨[], [], []⟩, .alive, 0⟩ : MembershipUpdate).incarnation =
      (s.step some a).m.incarnation :=
  ((self_description_current_iff some (ascii ['a']) ⟨[], [], []⟩ none).2 readsJoin
    (.dispatch (.listing [⟨ascii ['a'], .new (ascii ['a']) ⟨[], [], []⟩⟩]))).2.2
    (fun _ _ => by decide +kernel) ⟨ascii ['a'], ⟨[], [], []⟩, .alive, 0⟩ (by decide +kernel)

/-- After a refutation, the node answers a join with incarnation 0. -/
theorem self_description_stale :
    let s := run (step some) (start (ascii ['a']) ⟨[], [], []⟩ none)
      (hears [.report (ascii ['a']) .suspect 0] 1 ++ .dispatch (.listing []) :: readsJoin)
    let a := Act.dispatch (.listing [⟨ascii ['a'], .new (ascii ['a']) ⟨[], [], []⟩⟩])
    s.m.incarnation = 1 ∧ s.selfDescriptions a = [⟨ascii ['a'], ⟨[], [], []⟩, .alive, 0⟩] ∧
      (s.step some a).sent = [⟨ascii ['b'], ⟨.ack, ascii ['a'], [], [], 1,
        [⟨ascii ['a'], ⟨[], [], []⟩, .alive, 0⟩]⟩⟩] := by
  decide +kernel

end Swim

end DistCache
