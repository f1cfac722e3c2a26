/-
  Refutation wins in an honest cluster.

  Every incarnation about a node `x`, in the registry, the queue, the socket or a
  message of any node, is at most the incarnation of `x` itself: `Within B` bounds
  the incarnations by `B`, every transition keeps the bound if it is raised to the
  incarnation of the node that moves (`Within.step`), and only `refute` raises it.
  So an update queued by the latest `refute` is stale nowhere.
-/
import DistCache.Proof.Peers
import DistCache.Proof.Relay

namespace DistCache

open Lib

variable {B B' : NodeID → UInt64}

/-! ## Bounds -/

/-- The incarnation in an update is within the bound for its node. -/
def MembershipUpdate.Within (B : NodeID → UInt64) (u : MembershipUpdate) : Prop :=
  u.incarnation ≤ B u.nodeID

structure SwimMessage.Within (B : NodeID → UInt64) (msg : SwimMessage) : Prop where
  sender : msg.incarnation ≤ B msg.senderID
  updates : ∀ u ∈ msg.updates, u.Within B

structure Membership.Within (B : NodeID → UInt64) (m : Membership) : Prop where
  id : ∀ x info, m.registry.lookup x = some info → info.id = x
  registry : ∀ x info, m.registry.lookup x = some info → info.incarnation ≤ B x
  queue : ∀ q ∈ m.updateQueue, q.update.Within B
  self : m.incarnation ≤ B m.selfID

structure Swim.Within (B : NodeID → UInt64) (s : Swim) : Prop where
  m : s.m.Within B
  socket : ∀ d ∈ s.socket, d.msg.Within B
  updates : ∀ u ∈ s.recv.updates, u.Within B
  sent : ∀ d ∈ s.sent, d.msg.Within B

section
variable (hB : ∀ x, B x ≤ B' x)
include hB

theorem MembershipUpdate.Within.mono {u : MembershipUpdate} (h : u.Within B) : u.Within B' :=
  UInt64.le_trans h (hB _)

theorem SwimMessage.Within.mono {msg : SwimMessage} (h : msg.Within B) : msg.Within B' :=
  ⟨UInt64.le_trans h.sender (hB _), fun u hu => (h.updates u hu).mono hB⟩

theorem Membership.Within.mono {m : Membership} (h : m.Within B) : m.Within B' :=
  ⟨h.id, fun x info hx => UInt64.le_trans (h.registry x info hx) (hB x),
    fun q hq => (h.queue q hq).mono hB, UInt64.le_trans h.self (hB _)⟩

theorem Swim.Within.mono {s : Swim} (h : s.Within B) : s.Within B' :=
  ⟨h.m.mono hB, fun d hd => (h.socket d hd).mono hB,
    fun u hu => (h.updates u hu).mono hB,
    fun d hd => (h.sent d hd).mono hB⟩

end

/-! ## Membership -/

namespace Membership

/-- The updates that `applyUpdate` answers by `refute`. -/
def Refuted (m : Membership) (u : MembershipUpdate) : Prop :=
  u.nodeID = m.selfID ∧ (u.status = .suspect ∨ u.status = .dead)

theorem Refuted.applyUpdate {m : Membership} {u : MembershipUpdate} (hu : m.Refuted u) :
    m.applyUpdate u = m.refute u := by
  rw [Membership.applyUpdate, if_pos hu.1, if_pos hu.2]

theorem Refuted.beginUpdate {m : Membership} {u : MembershipUpdate} (hu : m.Refuted u) :
    m.beginUpdate u = (m.refute u, none) := by
  rw [Membership.beginUpdate, if_pos hu.1, if_pos hu.2]

theorem start_within (selfID : NodeID) (addrs : Addrs) (injector : Option FaultInjector) :
    (start selfID addrs injector).Within B := by
  have hlookup : ∀ y info, (start selfID addrs injector).registry.lookup y = some info →
      y = selfID ∧ info = NodeInfo.new selfID addrs := by
    intro y info hy
    by_cases hyx : y = selfID
    · subst hyx
      have hnew := Finmap.lookup_insert (a := y) (b := NodeInfo.new y addrs) (∅ : NodeRegistry)
      exact ⟨rfl, Option.some.inj (hy.symm.trans hnew)⟩
    · have hempty := (Finmap.lookup_insert_of_ne (a := selfID) (b := NodeInfo.new selfID addrs)
        (∅ : NodeRegistry) hyx).trans (Finmap.lookup_empty y)
      cases hy.symm.trans hempty
  refine ⟨fun y info hy => ?_, fun y info hy => ?_, fun q hq => ?_, UInt64.zero_le⟩
  · obtain ⟨rfl, rfl⟩ := hlookup y info hy; rfl
  · obtain ⟨rfl, rfl⟩ := hlookup y info hy; exact UInt64.zero_le
  · rw [List.mem_singleton.1 hq]; exact UInt64.zero_le

section
variable {m m' : Membership} (h : m.Within B)
include h

theorem Within.congr (hr : m'.registry = m.registry) (hq : m'.updateQueue = m.updateQueue)
    (hi : m'.incarnation = m.incarnation) (hs : m'.selfID = m.selfID) : m'.Within B :=
  ⟨by rw [hr]; exact h.id, by rw [hr]; exact h.registry, by rw [hq]; exact h.queue,
    by rw [hi, hs]; exact h.self⟩

theorem Within.coalesce {u : MembershipUpdate} (hu : u.Within B) :
    ∀ q ∈ coalesce u m.updateQueue, q.update.Within B := by
  intro q hq
  rcases mem_coalesce hq with hq | hq
  · rw [hq]; exact hu
  · exact h.queue q hq

/-- A transition that writes one record and queues updates within the bound. -/
theorem Within.write {x : NodeID} {info : NodeInfo}
    (hr : m'.registry = m.registry.insert x info) (hid : info.id = x)
    (hinfo : info.incarnation ≤ B x) (hq : ∀ q ∈ m'.updateQueue, q.update.Within B)
    (hi : m'.incarnation = m.incarnation) (hs : m'.selfID = m.selfID) : m'.Within B := by
  have hlookup : ∀ y info', m'.registry.lookup y = some info' →
      y = x ∧ info' = info ∨ m.registry.lookup y = some info' := by
    intro y info' hy
    rw [hr] at hy
    by_cases hyx : y = x
    · rw [hyx, Finmap.lookup_insert] at hy
      exact Or.inl ⟨hyx, (Option.some.inj hy).symm⟩
    · rw [Finmap.lookup_insert_of_ne _ hyx] at hy
      exact Or.inr hy
  refine ⟨fun y info' hy => ?_, fun y info' hy => ?_, hq, by rw [hi, hs]; exact h.self⟩
  · rcases hlookup y info' hy with ⟨rfl, rfl⟩ | hy
    · exact hid
    · exact h.id y info' hy
  · rcases hlookup y info' hy with ⟨rfl, rfl⟩ | hy
    · exact hinfo
    · exact h.registry y info' hy

theorem Within.setStatus {x : NodeID} {info : NodeInfo} {status : NodeStatus}
    (hl : m.registry.lookup x = some info)
    (hr : m'.registry = m.registry.insert x { info with status })
    (hq : ∀ q ∈ m'.updateQueue, q.update.Within B) (hi : m'.incarnation = m.incarnation)
    (hs : m'.selfID = m.selfID) : m'.Within B := by
  have hid := h.id x info hl
  have hinc := h.registry x info hl
  exact h.write hr hid hinc hq hi hs

theorem Within.beginUpdate {u : MembershipUpdate} (hu : u.nodeID ≠ m.selfID → u.Within B)
    (hnot : ¬ m.Refuted u) :
    (m.beginUpdate u).1.Within B ∧ (m.beginUpdate u).1.incarnation = m.incarnation := by
  have hb := beginUpdate_begins m u
  generalize m.beginUpdate u = r at hb
  cases hb with
  | same | suspect | dead => exact ⟨h, rfl⟩
  | refute he hs => exact absurd ⟨he, hs⟩ hnot
  | join hne hl hs => exact ⟨h.write rfl rfl (hu hne) h.queue rfl rfl, rfl⟩
  | alive _ hl => exact ⟨h.setStatus hl rfl h.queue rfl rfl, rfl⟩
  | left _ hl => exact ⟨h.setStatus hl rfl h.queue rfl rfl, rfl⟩

theorem Within.resumeUpdate {u : MembershipUpdate} (hu : u.Within B) (todo : Todo) :
    (m.resumeUpdate u todo).1.Within B ∧
      (m.resumeUpdate u todo).1.incarnation = m.incarnation := by
  have hr := resumeUpdate_resumes m u todo
  generalize m.resumeUpdate u todo = r at hr
  cases hr with
  | gone => exact ⟨h, rfl⟩
  | join | cancel | emit => exact ⟨h.congr rfl rfl rfl rfl, rfl⟩
  | queue => exact ⟨⟨h.id, h.registry, h.coalesce hu, h.self⟩, rfl⟩
  | stamp hl =>
    have hid := h.id _ _ hl
    exact ⟨h.write rfl hid hu h.queue rfl rfl, rfl⟩
  | suspect hl => exact ⟨h.setStatus hl rfl h.queue rfl rfl, rfl⟩
  | bury hl => exact ⟨h.setStatus hl rfl h.queue rfl rfl, rfl⟩

theorem Within.setSuspect (x : NodeID) :
    (m.setSuspect x).Within B ∧ (m.setSuspect x).incarnation = m.incarnation := by
  rcases m.setSuspect_cases x with ⟨he, -⟩ | ⟨info, hl, he⟩
  · rw [he]; exact ⟨h, rfl⟩
  · rw [he]
    exact ⟨h.setStatus hl rfl (h.coalesce (h.registry x info hl)) rfl rfl, rfl⟩

theorem Within.markDead (x : NodeID) :
    (m.markDead x).Within B ∧ (m.markDead x).incarnation = m.incarnation := by
  rcases m.markDead_cases x with ⟨he, -⟩ | ⟨info, hl, -, he⟩
  · rw [he]; exact ⟨h, rfl⟩
  · rw [he]
    exact ⟨h.setStatus hl rfl (h.coalesce (h.registry x info hl)) rfl rfl, rfl⟩

theorem Within.fire (t : ℕ) :
    (m.fire t).Within B ∧ (m.fire t).incarnation = m.incarnation := by
  obtain ⟨_, _, he⟩ := m.fire_eq t
  rw [he]
  exact ⟨h.congr rfl rfl rfl rfl, rfl⟩

theorem Within.callback (x : NodeID) :
    (m.callback x).Within B ∧ (m.callback x).incarnation = m.incarnation := by
  unfold Membership.callback
  split_ifs
  · have hpop : Within B { m with fired := m.fired.erase x } := h.congr rfl rfl rfl rfl
    exact hpop.markDead x
  · exact ⟨h, rfl⟩

theorem Within.drainUpdates : m.drainUpdates.2.Within B :=
  ⟨h.id, h.registry, (drainUpdates_queued h.queue).2, h.self⟩

theorem Within.leave : m.leave.Within B := by
  have hq : ∀ q ∈ m.leave.updateQueue, q.update.Within B := h.coalesce h.self
  cases hl : m.registry.lookup m.selfID with
  | none => exact ⟨by simpa [Membership.leave, queueUpdate, hl] using h.id,
      by simpa [Membership.leave, queueUpdate, hl] using h.registry, hq, h.self⟩
  | some info =>
    have hr : m.leave.registry = m.registry.insert m.selfID { info with status := .left } := by
      simp [Membership.leave, queueUpdate, hl]
    exact h.setStatus hl hr hq rfl rfl

end

/-- A report about the node that is not from the future raises its incarnation by at most
    one. -/
theorem refute_incarnation {m : Membership} {u : MembershipUpdate}
    (hu : u.incarnation ≤ m.incarnation) (hroom : m.incarnation.toNat + 1 < 2 ^ 64) :
    m.incarnation ≤ (m.refute u).incarnation ∧
      (m.refute u).incarnation.toNat ≤ m.incarnation.toNat + 1 := by
  change m.incarnation ≤ (if m.incarnation ≤ u.incarnation then _ else _) ∧
    (if m.incarnation ≤ u.incarnation then _ else _ : UInt64).toNat ≤ _
  split_ifs with hle
  · rw [UInt64.le_antisymm hu hle, UInt64.le_iff_toNat_le, UInt64.toNat_add]
    have hone : (1 : UInt64).toNat = 1 := rfl
    rw [hone, Nat.mod_eq_of_lt hroom]
    omega
  · exact ⟨UInt64.le_refl _, Nat.le_succ _⟩

theorem Within.refute {m : Membership} (h : m.Within B) {u : MembershipUpdate}
    (hB : ∀ x, B x ≤ B' x) (hself : B' m.selfID = (m.refute u).incarnation) :
    (m.refute u).Within B' := by
  have h' := h.mono hB
  have halive : (m.refute u).selfAlive.Within B' := by
    change (m.refute u).incarnation ≤ B' m.selfID
    rw [hself]; exact UInt64.le_refl _
  exact ⟨h'.id, h'.registry, h'.coalesce halive, halive⟩

end Membership

/-! ## Nodes -/

namespace Swim

section
variable (resolve : GoString → Option UDPAddr) {s : Swim} (h : s.Within B)
include h

theorem Within.known {u : MembershipUpdate} (hu : Known s.m u) : u.Within B := by
  cases hu with
  | queued hq => exact h.m.queue _ hq
  | @record x info hl =>
    change info.incarnation ≤ B info.id
    rw [h.m.id x info hl]
    exact h.m.registry x info hl
  | self => exact h.m.self

theorem Within.sends (hc : ChanInv s) {msg : SwimMessage} (hmsg : Sends s msg) :
    msg.Within B := by
  cases hmsg with
  | own hack hu => exact ⟨h.m.self, fun u hmem => h.known (hu u hmem)⟩
  | relay hrecv hch => exact absurd hch (hc.waiting _ _ _ _ hrecv).2

theorem Within.step_sent (hc : ChanInv s) (a : Act) :
    ∀ d ∈ (s.step resolve a).sent, d.msg.Within B := by
  obtain ⟨ds, he, hds⟩ := Swim.step_sent resolve s a
  intro d hd
  rw [he] at hd
  rcases List.mem_append.1 hd with hd | hd
  · exact h.sent d hd
  · exact h.sends hc (hds d hd)

theorem Within.step_socket {a : Act} (harr : ∀ d, a = .arrive d → d.msg.Within B) :
    ∀ d ∈ (s.step resolve a).socket, d.msg.Within B := by
  have heff := step_effect resolve s a
  generalize s.step resolve a = s' at heff ⊢
  cases heff with
  | arrive d =>
    intro d' hd'
    rcases List.mem_append.1 hd' with hd' | hd'
    · exact h.socket d' hd'
    · rw [List.mem_singleton.1 hd']; exact harr d rfl
  | drop hs | read _ hs => exact fun d hd => h.socket d (hs ▸ List.mem_cons_of_mem _ hd)
  | _ => exact h.socket

theorem Within.step_updates (a : Act) : ∀ u ∈ (s.step resolve a).recv.updates, u.Within B := by
  intro u hu
  rcases Swim.step_updates resolve s a hu with hu | ⟨d, hd, hu⟩
  · exact h.updates u hu
  · exact (h.socket d hd).updates u hu

end

/-- A transition that does not refute keeps the bound of a node on its membership state, and the
    incarnation. -/
theorem step_within (resolve : GoString → Option UDPAddr) {s : Swim} (h : s.m.Within B)
    (hrest : ∀ update rest msg remote, s.recv = .applying (update :: rest) msg remote →
      update.nodeID ≠ s.m.selfID → update.Within B)
    (hpending : ∀ todo u, s.recv.pending = some (todo, u) → u.Within B)
    {a : Act} (ha : World.refutation s a = none) :
    (s.step resolve a).m.Within B ∧ (s.step resolve a).m.incarnation = s.m.incarnation := by
  have heff := step_effect resolve s a
  generalize s.step resolve a = s' at heff ⊢
  cases heff with
  | @apply update rest msg remote hrecv =>
    refine h.beginUpdate (hrest _ _ _ _ hrecv) fun hu => ?_
    simp only [World.refutation, hrecv] at ha
    split_ifs at ha with hno
    exact hno hu
  | resume hrecv => exact h.resumeUpdate (hpending _ _ (by rw [hrecv]; rfl)) _
  | ping => exact ⟨h.drainUpdates, rfl⟩
  | @ack _ msg =>
    obtain ⟨_, _, he⟩ := s.m.handleAck_eq msg
    dsimp only
    rw [he]
    exact ⟨h.congr rfl rfl rfl rfl, rfl⟩
  | pingReq | tick =>
    exact ⟨Membership.Within.drainUpdates (h.congr rfl rfl rfl rfl), rfl⟩
  | recvTimeout | pingReqs | pingTimeout | inject => exact ⟨h.congr rfl rfl rfl rfl, rfl⟩
  | mark => exact h.setSuspect _
  | fire t => exact h.fire t
  | callback x => exact h.callback x
  | leave => exact ⟨h.leave, rfl⟩
  | halt ord =>
    obtain ⟨_, he⟩ := s.m.stopTimers_eq ord
    dsimp only
    rw [he]
    exact ⟨h.congr rfl rfl rfl rfl, rfl⟩
  | _ => exact ⟨h, rfl⟩

theorem Within.step_m (resolve : GoString → Option UDPAddr) {s : Swim} (h : s.Within B) {a : Act}
    (ha : World.refutation s a = none) :
    (s.step resolve a).m.Within B ∧ (s.step resolve a).m.incarnation = s.m.incarnation := by
  refine step_within resolve h.m (fun update rest msg remote hrecv _ => ?_)
    (fun todo u hu => h.updates u (Recv.mem_updates hu)) ha
  exact h.updates update (by rw [hrecv]; exact List.mem_cons_self)

theorem refutation_eq_some {s : Swim} {a : Act} {u : MembershipUpdate}
    (h : World.refutation s a = some u) :
    ∃ update rest msg remote, a = .apply ∧ s.recv = .applying (update :: rest) msg remote ∧
      s.m.Refuted update ∧ u = (s.m.refute update).selfAlive := by
  cases a with
  | apply =>
    unfold World.refutation at h
    dsimp only at h
    split at h
    · rename_i update rest msg remote hrecv
      split_ifs at h with hu
      have hu' : s.m.Refuted update := hu
      rw [hu'.applyUpdate] at h
      exact ⟨update, rest, msg, remote, rfl, hrecv, hu', (Option.some.inj h).symm⟩
    · cases h
  | _ => cases h

theorem step_m_of_refuted (resolve : GoString → Option UDPAddr) {s : Swim}
    {update : MembershipUpdate} {rest : List MembershipUpdate} {msg : SwimMessage}
    {remote : UDPAddr} (hrecv : s.recv = .applying (update :: rest) msg remote)
    (hu : s.m.Refuted update) : (s.step resolve .apply).m = s.m.refute update := by
  simp only [step, apply, hrecv, hu.beginUpdate]

/-- **A transition of a node**, in a state within the bound `B` that is exact for the node
    itself: its incarnation grows by at most one, and only if it refutes, and the state is
    within the bound raised to the new incarnation. -/
theorem Within.step (resolve : GoString → Option UDPAddr) {s : Swim} (h : s.Within B)
    (hc : ChanInv s) (hB : B s.m.selfID = s.m.incarnation)
    (hroom : s.m.incarnation.toNat + 1 < 2 ^ 64) {a : Act}
    (harr : ∀ d, a = .arrive d → d.msg.Within B) :
    s.m.incarnation ≤ (s.step resolve a).m.incarnation ∧
      (s.step resolve a).m.incarnation.toNat ≤
        s.m.incarnation.toNat + (World.refutation s a).toList.length ∧
      (s.step resolve a).Within
        (Function.update B s.m.selfID (s.step resolve a).m.incarnation) := by
  cases hr : World.refutation s a with
  | none =>
    obtain ⟨hm, hi⟩ := h.step_m resolve hr
    rw [hi, ← hB, Function.update_eq_self]
    exact ⟨UInt64.le_refl _, Nat.le_refl _, hm, h.step_socket resolve harr,
      h.step_updates resolve a, h.step_sent resolve hc a⟩
  | some u =>
    obtain ⟨update, rest, msg, remote, rfl, hrecv, hu, -⟩ := refutation_eq_some hr
    -- the report is not newer than the node itself, so the incarnation grows by one at most
    have hle : update.incarnation ≤ s.m.incarnation := by
      have hw := h.updates update (by rw [hrecv]; exact List.mem_cons_self)
      rw [MembershipUpdate.Within, hu.1, hB] at hw
      exact hw
    have hm := step_m_of_refuted resolve hrecv hu
    obtain ⟨hinc, hsucc⟩ := Membership.refute_incarnation hle hroom
    rw [← hm] at hinc hsucc
    have hB' : ∀ x, B x ≤
        Function.update B s.m.selfID (s.step resolve .apply).m.incarnation x := by
      intro x
      by_cases hx : x = s.m.selfID
      · rw [hx, Function.update_self, hB]; exact hinc
      · rw [Function.update_of_ne hx]; exact UInt64.le_refl _
    refine ⟨hinc, hsucc, ?_, ?_, ?_, ?_⟩
    · rw [hm] at hB' ⊢
      exact h.m.refute hB' (Function.update_self ..)
    · exact fun d hd => (h.step_socket resolve harr d hd).mono hB'
    · exact fun u hu => (h.step_updates resolve _ u hu).mono hB'
    · exact fun d hd => (h.step_sent resolve hc _ d hd).mono hB'

end Swim

/-! ## Clusters -/

namespace World

/-- The own incarnation of a node. -/
def incarnation (w : World) (x : NodeID) : UInt64 := (w.node x).m.incarnation

/-- The number of refutations of a node leaves room for its incarnation. -/
def Small (w : World) : Prop := ∀ x, (w.refuted x).length < 2 ^ 64 - 1

/-- The invariant of a cluster without forged messages. -/
structure Honest (w : World) : Prop where
  selfID : ∀ x, (w.node x).m.selfID = x
  chans : ∀ x, (w.node x).ChanInv
  within : ∀ x, (w.node x).Within w.incarnation
  count : ∀ x, (w.incarnation x).toNat ≤ (w.refuted x).length
  latest : ∀ x u us, w.refuted x = u :: us →
    u.nodeID = x ∧ u.status = .alive ∧ u.incarnation = w.incarnation x

theorem start_honest (addrs : NodeID → Addrs) (injector : NodeID → Option FaultInjector) :
    Honest (start addrs injector) := by
  refine ⟨fun _ => rfl, fun x => Swim.start_chanInv .., fun x => ?_, fun _ => Nat.le_refl 0,
    fun x u us hu => nomatch hu⟩
  exact ⟨Membership.start_within .., fun d hd => absurd hd List.not_mem_nil,
    fun u hu => absurd hu List.not_mem_nil, fun d hd => absurd hd List.not_mem_nil⟩

section
variable (resolve : GoString → Option UDPAddr) {w : World} {a : Act}

@[simp] theorem step_node_self :
    (w.step resolve a).node a.nodeID = (w.node a.nodeID).step resolve a.act :=
  Function.update_self ..

@[simp] theorem step_node_of_ne {x : NodeID} (hx : x ≠ a.nodeID) :
    (w.step resolve a).node x = w.node x := Function.update_of_ne hx ..

@[simp] theorem step_refuted_self : (w.step resolve a).refuted a.nodeID =
    (refutation (w.node a.nodeID) a.act).toList ++ w.refuted a.nodeID :=
  Function.update_self ..

@[simp] theorem step_refuted_of_ne {x : NodeID} (hx : x ≠ a.nodeID) :
    (w.step resolve a).refuted x = w.refuted x := Function.update_of_ne hx ..

theorem step_incarnation : (w.step resolve a).incarnation =
    Function.update w.incarnation a.nodeID
      ((w.node a.nodeID).step resolve a.act).m.incarnation := by
  funext x
  unfold incarnation
  by_cases hx : x = a.nodeID
  · subst hx; simp
  · simp [hx]

theorem small_of_step (h : Small (w.step resolve a)) : Small w := by
  intro x
  have hx := h x
  by_cases he : x = a.nodeID
  · subst he
    rw [step_refuted_self, List.length_append] at hx
    omega
  · rwa [step_refuted_of_ne resolve he] at hx

theorem length_refutation_le (s : Swim) (a : Swim.Act) :
    (refutation s a).toList.length ≤ 1 := by
  cases refutation s a <;> simp

/-- A short run is small. -/
theorem small_of_length {addrs : NodeID → Addrs} {injector : NodeID → Option FaultInjector}
    (acts : List Act) (h : acts.length < 2 ^ 64 - 1) :
    Small (run (World.step resolve) (start addrs injector) acts) := by
  have hrun : ∀ (w : World) (x : NodeID),
      ((run (World.step resolve) w acts).refuted x).length ≤
        (w.refuted x).length + acts.length := by
    clear h
    induction acts with
    | nil => exact fun _ _ => Nat.le_refl _
    | cons a acts ih =>
      intro w x
      refine (ih (w.step resolve a) x).trans ?_
      have hstep : ((w.step resolve a).refuted x).length ≤ (w.refuted x).length + 1 := by
        by_cases hx : x = a.nodeID
        · subst hx
          rw [step_refuted_self, List.length_append]
          have := length_refutation_le (w.node a.nodeID) a.act
          omega
        · rw [step_refuted_of_ne resolve hx]
          exact Nat.le_succ _
      rw [List.length_cons]
      omega
  intro x
  refine (hrun (start addrs injector) x).trans_lt ?_
  rwa [show (start addrs injector).refuted x = [] from rfl, List.length_nil, Nat.zero_add]

theorem Honest.room (h : Honest w) (hs : Small w) (x : NodeID) :
    (w.node x).m.incarnation.toNat + 1 < 2 ^ 64 := by
  have h1 : (w.node x).m.incarnation.toNat ≤ _ := h.count x
  have h2 := hs x
  omega

theorem Honest.arrive (h : Honest w) (ha : w.Enabled a) (d : Datagram)
    (hd : a.act = .arrive d) : d.msg.Within w.incarnation := by
  obtain ⟨y, d', hd', he⟩ := ha d hd
  rw [← he]
  exact (h.within y).sent d' hd'

/-- The step lemma of the node that moves, in the cluster. -/
theorem Honest.node_step (h : Honest w) (hs : Small w) (ha : w.Enabled a) :
    w.incarnation a.nodeID ≤ (w.step resolve a).incarnation a.nodeID ∧
      ((w.step resolve a).incarnation a.nodeID).toNat ≤
        (w.incarnation a.nodeID).toNat + (refutation (w.node a.nodeID) a.act).toList.length ∧
      ((w.node a.nodeID).step resolve a.act).Within (w.step resolve a).incarnation := by
  have hself := h.selfID a.nodeID
  have hB : w.incarnation (w.node a.nodeID).m.selfID = (w.node a.nodeID).m.incarnation := by
    rw [hself]; rfl
  have hstep := (h.within a.nodeID).step resolve (h.chans a.nodeID) hB (h.room hs a.nodeID)
    (h.arrive ha)
  rw [hself, ← step_incarnation] at hstep
  rw [step_incarnation, Function.update_self, ← step_incarnation]
  exact hstep

theorem Honest.incarnation_le (h : Honest w) (hs : Small w) (ha : w.Enabled a) (x : NodeID) :
    w.incarnation x ≤ (w.step resolve a).incarnation x := by
  by_cases hx : x = a.nodeID
  · rw [hx]; exact (h.node_step resolve hs ha).1
  · rw [step_incarnation, Function.update_of_ne hx]; exact UInt64.le_refl _

theorem Honest.step_latest (h : Honest w) {u : MembershipUpdate}
    (hu : refutation (w.node a.nodeID) a.act = some u) :
    u.nodeID = a.nodeID ∧ u.status = .alive ∧
      u.incarnation = (w.step resolve a).incarnation a.nodeID := by
  obtain ⟨update, rest, msg, remote, hact, hrecv, href, rfl⟩ := Swim.refutation_eq_some hu
  refine ⟨h.selfID a.nodeID, rfl, ?_⟩
  rw [step_incarnation, Function.update_self, hact, Swim.step_m_of_refuted resolve hrecv href]
  rfl

theorem Honest.step (h : Honest w) (hs : Small w) (ha : w.Enabled a) :
    Honest (w.step resolve a) := by
  obtain ⟨-, hcount, hwithin⟩ := h.node_step resolve hs ha
  -- for each field: the node that moves, and the others
  refine ⟨fun x => ?_, fun x => ?_, fun x => ?_, fun x => ?_, fun x u us hu => ?_⟩ <;>
    by_cases hx : x = a.nodeID
  · subst hx
    rw [step_node_self, Swim.step_selfID, h.selfID]
  · rw [step_node_of_ne resolve hx, h.selfID]
  · subst hx
    rw [step_node_self]
    exact (h.chans a.nodeID).step resolve a.act
  · rw [step_node_of_ne resolve hx]
    exact h.chans x
  · subst hx
    rw [step_node_self]
    exact hwithin
  · rw [step_node_of_ne resolve hx]
    exact (h.within x).mono (h.incarnation_le resolve hs ha)
  · subst hx
    rw [step_refuted_self, List.length_append]
    have := h.count a.nodeID
    omega
  · rw [step_refuted_of_ne resolve hx, step_incarnation, Function.update_of_ne hx]
    exact h.count x
  · subst hx
    rw [step_refuted_self] at hu
    cases hr : refutation (w.node a.nodeID) a.act with
    | some v =>
      rw [hr] at hu
      cases hu
      exact h.step_latest resolve hr
    | none =>
      -- a step that does not refute leaves the incarnation as it is
      rw [hr] at hu
      obtain ⟨hid, hs, hi⟩ := h.latest _ u us hu
      refine ⟨hid, hs, hi.trans ?_⟩
      rw [step_incarnation, Function.update_self]
      exact ((h.within a.nodeID).step_m resolve hr).2.symm
  · rw [step_refuted_of_ne resolve hx] at hu
    rw [step_incarnation, Function.update_of_ne hx]
    exact h.latest x u us hu

theorem honest_of_run {addrs : NodeID → Addrs} {injector : NodeID → Option FaultInjector}
    {acts : List Act} (hacts : Along (World.step resolve) Enabled (start addrs injector) acts)
    (hs : Small (run (World.step resolve) (start addrs injector) acts)) :
    Honest (run (World.step resolve) (start addrs injector) acts) := by
  refine hacts.inv (I := fun w => Small w → Honest w) ?_ (fun _ => start_honest addrs injector) hs
  intro w a hw ha hsmall
  have hs := small_of_step resolve hsmall
  exact (hw hs).step resolve hs ha

/-! ## Refutations -/

/-- All that node `y` has recorded, queued, received or sent about node `x` carries an
    incarnation of at most that of `x` itself. -/
structure AtMostOwn (w : World) (x y : NodeID) : Prop where
  registry : ∀ info, (w.node y).m.registry.lookup x = some info →
    info.incarnation ≤ w.incarnation x
  queue : ∀ q ∈ (w.node y).m.updateQueue, q.update.nodeID = x →
    q.update.incarnation ≤ w.incarnation x
  header : ∀ d, d ∈ (w.node y).sent ∨ d ∈ (w.node y).socket → d.msg.senderID = x →
    d.msg.incarnation ≤ w.incarnation x
  updates : ∀ d, d ∈ (w.node y).sent ∨ d ∈ (w.node y).socket → ∀ u ∈ d.msg.updates,
    u.nodeID = x → u.incarnation ≤ w.incarnation x

theorem Honest.atMostOwn (h : Honest w) (x y : NodeID) : AtMostOwn w x y := by
  have hmsg : ∀ d, d ∈ (w.node y).sent ∨ d ∈ (w.node y).socket → d.msg.Within w.incarnation := by
    rintro d (hd | hd)
    · exact (h.within y).sent d hd
    · exact (h.within y).socket d hd
  refine ⟨fun info hl => (h.within y).m.registry x info hl, fun q hq hx => ?_,
    fun d hd hx => ?_, fun d hd u hu hx => ?_⟩
  · subst hx; exact (h.within y).m.queue q hq
  · subst hx; exact (hmsg d hd).sender
  · subst hx; exact (hmsg d hd).updates u hu

/-- What a node queues in `refute` is in its queue afterwards. -/
theorem Honest.refutation_queued (h : Honest w) (hs : Small w) {u : MembershipUpdate}
    (hu : refutation (w.node a.nodeID) a.act = some u) :
    ⟨u, 0⟩ ∈ ((w.step resolve a).node a.nodeID).m.updateQueue := by
  obtain ⟨update, rest, msg, remote, hact, hrecv, href, rfl⟩ := Swim.refutation_eq_some hu
  have ha : w.Enabled a := fun d hd => by rw [hact] at hd; cases hd
  have hinc := (h.node_step resolve hs ha).1
  rw [step_incarnation, Function.update_self, hact,
    Swim.step_m_of_refuted resolve hrecv href] at hinc
  rw [step_node_self, hact, Swim.step_m_of_refuted resolve hrecv href]
  refine Membership.exists_mem_coalesce fun q hq hid => UInt64.le_trans ?_ hinc
  have hwithin := (h.within a.nodeID).m.queue q hq
  have hx : q.update.nodeID = a.nodeID := hid.trans (h.selfID a.nodeID)
  rwa [MembershipUpdate.Within, hx] at hwithin

theorem Honest.refuted_alive (h : Honest w) {x y : NodeID} {u : MembershipUpdate}
    {us : List MembershipUpdate} {info : NodeInfo} (hxy : y ≠ x) (hu : w.refuted x = u :: us)
    (hl : (w.node y).m.registry.lookup x = some info) :
    ∃ i, ((w.node y).m.applyUpdate u).view x = some (.alive, i) := by
  obtain ⟨hid, hs, hi⟩ := h.latest x u us hu
  have hself : x ≠ (w.node y).m.selfID := by rw [h.selfID]; exact hxy.symm
  have hle : info.incarnation ≤ u.incarnation := by
    rw [hi]; exact (h.within y).m.registry x info hl
  rw [Membership.view_applyUpdate, if_pos ⟨hid.symm, hself⟩, (w.node y).m.view_eq_some x hl]
  by_cases hal : info.status = .alive
  · rw [hal]
    exact ⟨_, Record.apply_alive_of_alive hs⟩
  · exact ⟨_, Record.apply_alive hs hle hal⟩

/-- **Refutation wins in an honest cluster.**  In every run of any number of nodes over a
    network that may lose, duplicate, delay and reorder messages, but not forge them, with
    fewer than `2 ^ 64 - 1` refutations per node: every incarnation about a node is at most
    its own; every transition raises the own incarnation of a node by at most one; what a
    node queues in `refute` is queued; and the update queued in the latest `refute` of `x`
    leaves every peer that has `x` in its registry, and applies it, with `x` Alive. -/
theorem refutation_wins (addrs : NodeID → Addrs) (injector : NodeID → Option FaultInjector)
    (acts : List Act) (hacts : Along (World.step resolve) Enabled (start addrs injector) acts)
    (hsmall : Small (run (World.step resolve) (start addrs injector) acts)) :
    let w := run (World.step resolve) (start addrs injector) acts
    (∀ x y, AtMostOwn w x y) ∧
      (∀ a, w.Enabled a → ∀ x, w.incarnation x ≤ (w.step resolve a).incarnation x ∧
        ((w.step resolve a).incarnation x).toNat ≤ (w.incarnation x).toNat + 1) ∧
      (∀ a u, refutation (w.node a.nodeID) a.act = some u →
        ⟨u, 0⟩ ∈ ((w.step resolve a).node a.nodeID).m.updateQueue) ∧
      ∀ x y u us info, y ≠ x → w.refuted x = u :: us →
        (w.node y).m.registry.lookup x = some info →
        ∃ i, ((w.node y).m.applyUpdate u).view x = some (.alive, i) := by
  intro w
  have h : Honest w := honest_of_run resolve hacts hsmall
  refine ⟨h.atMostOwn, fun a ha x => ⟨h.incarnation_le resolve hsmall ha x, ?_⟩,
    fun a u hu => h.refutation_queued resolve hsmall hu,
    fun x y u us info hxy hu hl => h.refuted_alive hxy hu hl⟩
  by_cases hx : x = a.nodeID
  · subst hx
    exact (h.node_step resolve hsmall ha).2.1.trans
      (Nat.add_le_add_left (length_refutation_le _ _) _)
  · rw [step_incarnation, Function.update_of_ne hx]
    exact Nat.le_succ _

end

/-! ## A refutation in a cluster of two -/

/-- The gossip address of a node is its ID. -/
def addrsOf (x : NodeID) : Addrs := ⟨[], x, []⟩

/-- The record node `y` has of `x`, next to its own. -/
def records (status : NodeStatus) : List (Σ _ : NodeID, NodeInfo) :=
  [⟨ascii ['y'], .new (ascii ['y']) (addrsOf (ascii ['y']))⟩,
    ⟨ascii ['x'], { NodeInfo.new (ascii ['x']) (addrsOf (ascii ['x'])) with status }⟩]

def joinOfX : SwimMessage :=
  ⟨.join, ascii ['x'], ascii ['x'], [], 0,
    [⟨ascii ['x'], addrsOf (ascii ['x']), .alive, 0⟩]⟩

/-- The ping by which `y` tells `x` of its suspicion. -/
def pingOfY : SwimMessage :=
  ⟨.ping, ascii ['y'], ascii ['y'], [], 0,
    [⟨ascii ['y'], addrsOf (ascii ['y']), .alive, 0⟩, .report (ascii ['x']) .suspect 0]⟩

/-- `x` joins `y`; `y` pings `x` in vain, suspects it, and pings it again; `x` receives this
    ping and refutes. -/
noncomputable def refuting : List Act :=
  [⟨ascii ['x'], .joinCluster [ascii ['y']]⟩, ⟨ascii ['y'], .arrive ⟨ascii ['x'], joinOfX⟩⟩,
    ⟨ascii ['y'], .read⟩, ⟨ascii ['y'], .apply⟩, ⟨ascii ['y'], .resume⟩, ⟨ascii ['y'], .resume⟩,
    ⟨ascii ['y'], .tick (.listing (records .alive)) 0⟩, ⟨ascii ['y'], .pingTimeout⟩,
    ⟨ascii ['y'], .pingReqs (.listing (records .alive)) ⟨id, fun _ => .refl _⟩⟩,
    ⟨ascii ['y'], .suspect⟩, ⟨ascii ['y'], .mark⟩,
    ⟨ascii ['y'], .tick (.listing (records .suspect)) 0⟩,
    ⟨ascii ['x'], .arrive ⟨ascii ['y'], pingOfY⟩⟩, ⟨ascii ['x'], .read⟩, ⟨ascii ['x'], .apply⟩,
    ⟨ascii ['x'], .resume⟩, ⟨ascii ['x'], .resume⟩, ⟨ascii ['x'], .apply⟩]

noncomputable def pair : World := run (step some) (start addrsOf fun _ => none) refuting

theorem refuting_enabled :
    Along (step some) Enabled (start addrsOf fun _ => none) refuting := by
  have hidle : ∀ (w : World) (x : NodeID) (a : Swim.Act), (∀ d, a ≠ .arrive d) →
      w.Enabled ⟨x, a⟩ := fun w x a ha d hd => absurd hd (ha d)
  refine ⟨hidle _ _ _ nofun, ?_, hidle _ _ _ nofun, hidle _ _ _ nofun, hidle _ _ _ nofun,
    hidle _ _ _ nofun, hidle _ _ _ nofun, hidle _ _ _ nofun, hidle _ _ _ nofun,
    hidle _ _ _ nofun, hidle _ _ _ nofun, hidle _ _ _ nofun, ?_, hidle _ _ _ nofun,
    hidle _ _ _ nofun, hidle _ _ _ nofun, hidle _ _ _ nofun, hidle _ _ _ nofun, trivial⟩
  · intro d hd
    cases hd
    exact ⟨ascii ['x'], ⟨ascii ['y'], joinOfX⟩, by decide +kernel, rfl⟩
  · intro d hd
    cases hd
    exact ⟨ascii ['y'], ⟨ascii ['x'], pingOfY⟩, by decide +kernel, rfl⟩

/-- The update of `x` wins over the suspicion of `y`. -/
theorem refutation_wins_pair :
    pair.refuted (ascii ['x']) = [⟨ascii ['x'], addrsOf (ascii ['x']), .alive, 1⟩] ∧
    (pair.node (ascii ['y'])).m.view (ascii ['x']) = some (.suspect, 0) ∧
    ∃ i, ((pair.node (ascii ['y'])).m.applyUpdate
      ⟨ascii ['x'], addrsOf (ascii ['x']), .alive, 1⟩).view (ascii ['x']) = some (.alive, i) := by
  have hu : pair.refuted (ascii ['x']) =
      [⟨ascii ['x'], addrsOf (ascii ['x']), .alive, 1⟩] := by decide +kernel
  have hl : (pair.node (ascii ['y'])).m.registry.lookup (ascii ['x']) =
      some { NodeInfo.new (ascii ['x']) (addrsOf (ascii ['x'])) with status := .suspect } := by
    decide +kernel
  refine ⟨hu, by decide +kernel, ?_⟩
  exact (refutation_wins some addrsOf (fun _ => none) refuting refuting_enabled
    (small_of_length some _ (by decide))).2.2.2 _ _ _ _ _ (by decide) hu hl

end World

end DistCache
