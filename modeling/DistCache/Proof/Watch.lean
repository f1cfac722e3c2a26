/-
  Suspicion timers watch the suspected nodes.

  A transition does one of three things to the timers: nothing, cancel the timer of a node that is
  no longer suspected, or start one for a node that becomes so (`Watch`).  So a suspected node
  has an armed timer, or a callback that waits (`no_suspect_forgotten`).

  An ALIVE update writes the status before it takes the lock under which it cancels the timer.
  If `markSuspect` runs in between, the timer that is cancelled is the one of the new suspicion;
  such runs are not `Orderly`.
-/
import DistCache.Proof.Peers
import DistCache.Proof.Store

namespace DistCache

open Lib

/-! ## Suspicion timers -/

namespace Membership

/-- A timer of `x` is armed, or its callback waits. -/
def Ticking (m : Membership) (x : NodeID) : Prop :=
  (∃ t, m.suspicionTimers.lookup x = some t ∧ m.armed.lookup t = some x) ∨ x ∈ m.fired

instance (m : Membership) (x : NodeID) : Decidable (m.Ticking x) :=
  decidable_of_iff ((m.suspicionTimers.lookup x).any (fun t => m.armed.lookup t = some x) = true ∨
    x ∈ m.fired) (by simp [Ticking, Option.any_eq_true])

/-- Suspected nodes are watched by a timer of their own. -/
structure Watch (m : Membership) : Prop where
  fresh : ∀ x t, m.suspicionTimers.lookup x = some t → t < m.nextTimer
  inj : ∀ x y t, m.suspicionTimers.lookup x = some t → m.suspicionTimers.lookup y = some t → x = y
  owner : ∀ t x y, m.armed.lookup t = some x → m.suspicionTimers.lookup y = some t → y = x
  watched : ∀ x j, m.view x = some (.suspect, j) → m.Ticking x

/-- The timers without the callbacks. -/
def clocks (m : Membership) : GoMap ℕ NodeID × GoMap NodeID ℕ × ℕ :=
  (m.armed, m.suspicionTimers, m.nextTimer)

section
variable {m m' : Membership} (h : Watch m)
include h

/-- The timers stay as they are, and the callbacks of the suspected nodes wait. -/
theorem Watch.of_clocks (hc : m'.clocks = m.clocks)
    (hv : ∀ x j, m'.view x = some (.suspect, j) →
      (∃ j, m.view x = some (.suspect, j)) ∧ (x ∈ m.fired → x ∈ m'.fired)) : Watch m' := by
  simp only [clocks, Prod.mk.injEq] at hc
  obtain ⟨e1, e2, e3⟩ := hc
  refine ⟨by rw [e2, e3]; exact h.fresh, by rw [e2]; exact h.inj, by rw [e1, e2]; exact h.owner,
    fun x j hx => ?_⟩
  obtain ⟨⟨j', hx⟩, hf⟩ := hv x j hx
  rcases h.watched x j' hx with ⟨t, ht, ha⟩ | hx
  · exact Or.inl ⟨t, by rw [e2]; exact ht, by rw [e1]; exact ha⟩
  · exact Or.inr (hf hx)

/-- The timer of another node is stopped. -/
theorem Watch.lookup_stopTimer {x z : NodeID} {t : ℕ} (hxz : x ≠ z)
    (ht : m.suspicionTimers.lookup x = some t) (ha : m.armed.lookup t = some x) :
    (m.stopTimer z).armed.lookup t = some x := by
  unfold stopTimer
  dsimp only
  split
  · exact ha
  · rename_i t' ht'
    have hne : t ≠ t' := fun he => hxz (h.inj x z t ht (he ▸ ht'))
    rw [Finmap.lookup_erase_ne hne]
    exact ha

/-- The timer of `z`, which is not suspected, is cancelled. -/
theorem Watch.of_cancel {z : NodeID} (hc : m'.clocks = (m.cancelTimer z).clocks)
    (hf : ∀ x ≠ z, x ∈ m.fired → x ∈ m'.fired) (hz : ∀ j, m'.view z ≠ some (.suspect, j))
    (hv : ∀ x ≠ z, m'.view x = m.view x) : Watch m' := by
  simp only [clocks, cancelTimer, Prod.mk.injEq] at hc
  obtain ⟨e1, e2, e3⟩ := hc
  have hsub : ∀ x t, m'.suspicionTimers.lookup x = some t →
      x ≠ z ∧ m.suspicionTimers.lookup x = some t := by
    intro x t hx
    rw [e2] at hx
    exact GoMap.of_lookup_erase hx
  refine ⟨fun x t hx => ?_, fun x y t hx hy => ?_, fun t x y hx hy => ?_, fun x j hx => ?_⟩
  · rw [e3]
    exact h.fresh x t (hsub x t hx).2
  · exact h.inj x y t (hsub x t hx).2 (hsub y t hy).2
  · rw [e1] at hx
    exact h.owner t x y (lookup_armed_stopTimer hx) (hsub y t hy).2
  · have hxz : x ≠ z := fun he => hz j (he ▸ hx)
    rw [hv x hxz] at hx
    rcases h.watched x j hx with ⟨t, ht, ha⟩ | hx
    · refine Or.inl ⟨t, ?_, ?_⟩
      · rw [e2]
        exact (Finmap.lookup_erase_ne hxz).trans ht
      · rw [e1]
        exact h.lookup_stopTimer hxz ht ha
    · exact Or.inr (hf x hxz hx)

/-- A timer of its own is started for `z`. -/
theorem Watch.of_start {z : NodeID} (hc : m'.clocks = ((m.stopTimer z).startTimer z).clocks)
    (hf : m'.fired = m.fired) (hv : ∀ x ≠ z, m'.view x = m.view x) : Watch m' := by
  simp only [clocks, Prod.mk.injEq] at hc
  obtain ⟨e1, e2, e3⟩ := hc
  replace e2 : m'.suspicionTimers = m.suspicionTimers.insert z m.nextTimer := e2
  replace e3 : m'.nextTimer = m.nextTimer + 1 := e3
  have hsub : ∀ x t, m'.suspicionTimers.lookup x = some t →
      x = z ∧ t = m.nextTimer ∨ x ≠ z ∧ m.suspicionTimers.lookup x = some t := by
    intro x t hx
    rw [e2] at hx
    by_cases hxz : x = z
    · rw [hxz, Finmap.lookup_insert] at hx
      exact Or.inl ⟨hxz, (Option.some.inj hx).symm⟩
    · rw [Finmap.lookup_insert_of_ne _ hxz] at hx
      exact Or.inr ⟨hxz, hx⟩
  refine ⟨fun x t hx => ?_, fun x y t hx hy => ?_, fun t x y hx hy => ?_, fun x j hx => ?_⟩
  · rw [e3]
    rcases hsub x t hx with ⟨-, rfl⟩ | ⟨-, hx⟩
    · exact Nat.lt_succ_self _
    · exact Nat.lt_succ_of_lt (h.fresh x t hx)
  · rcases hsub x t hx with ⟨hxz, hxt⟩ | ⟨-, hx'⟩ <;> rcases hsub y t hy with ⟨hyz, hyt⟩ | ⟨-, hy'⟩
    · rw [hxz, hyz]
    · exact absurd (h.fresh y t hy') (by omega)
    · exact absurd (h.fresh x t hx') (by omega)
    · exact h.inj x y t hx' hy'
  · rw [e1] at hx
    rcases lookup_armed_restart hx with ⟨htn, hxz⟩ | ⟨htn, hx⟩ <;>
      rcases hsub y t hy with ⟨hyz, hyt⟩ | ⟨-, hy'⟩
    · rw [hxz, hyz]
    · exact absurd (h.fresh y t hy') (by omega)
    · exact absurd hyt htn
    · exact h.owner t x y hx hy'
  · by_cases hxz : x = z
    · subst hxz
      refine Or.inl ⟨m.nextTimer, ?_, ?_⟩
      · rw [e2, Finmap.lookup_insert]
      · rw [e1]
        exact Finmap.lookup_insert _
    · rw [hv x hxz] at hx
      rcases h.watched x j hx with ⟨t, ht, ha⟩ | hx
      · refine Or.inl ⟨t, ?_, ?_⟩
        · rw [e2, Finmap.lookup_insert_of_ne _ hxz]
          exact ht
        · rw [e1]
          have hne : t ≠ m.nextTimer := (h.fresh x t ht).ne
          exact (Finmap.lookup_insert_of_ne _ hne).trans (h.lookup_stopTimer hxz ht ha)
      · exact Or.inr (hf ▸ hx)

/-- The record of `z` is written, and it is not suspected if it was not before. -/
theorem Watch.setInfo {z : NodeID} {info : NodeInfo}
    (hz : info.status = .suspect → ∃ j, m.view z = some (.suspect, j)) :
    Watch (m.setInfo z info) := by
  refine h.of_clocks rfl fun x j hx => ?_
  rw [view_setInfo] at hx
  split_ifs at hx with hxz
  · exact ⟨hxz ▸ hz (Prod.mk.inj (Option.some.inj hx)).1, id⟩
  · exact ⟨⟨j, hx⟩, id⟩

theorem Watch.beginUpdate (u : MembershipUpdate) : Watch (m.beginUpdate u).1 := by
  have hb := beginUpdate_begins m u
  generalize m.beginUpdate u = r at hb
  cases hb with
  | same | suspect | dead => exact h
  | refute => exact h.of_clocks rfl fun x j hx => ⟨⟨j, hx⟩, id⟩
  | join | alive | left => exact h.setInfo fun hs => by cases hs

theorem Watch.resumeUpdate (u : MembershipUpdate) {todo : Todo}
    (hcancel : todo = .cancel → ∀ j, m.view u.nodeID ≠ some (.suspect, j)) :
    Watch (m.resumeUpdate u todo).1 := by
  have hr := resumeUpdate_resumes m u todo
  generalize m.resumeUpdate u todo = r at hr
  have hother : ∀ (info : NodeInfo), ∀ x ≠ u.nodeID, (m.setInfo u.nodeID info).view x = m.view x :=
    fun info x hx => by rw [view_setInfo, if_neg hx]
  cases hr with
  | gone => exact h
  | join | queue | emit => exact h.of_clocks rfl fun x j hx => ⟨⟨j, hx⟩, id⟩
  | @stamp info hl =>
    exact h.setInfo fun hs => ⟨info.incarnation, hs ▸ m.view_eq_some _ hl⟩
  | cancel => exact h.of_cancel rfl (fun _ _ => id) (hcancel rfl) fun _ _ => rfl
  | suspect => exact h.of_start rfl rfl (hother _)
  | bury =>
    refine h.of_cancel rfl (fun _ _ => id) (fun j => ?_) (hother _)
    simp [view_setInfo]

theorem Watch.setSuspect (x : NodeID) : Watch (m.setSuspect x) := by
  rcases m.setSuspect_cases x with ⟨he, -⟩ | ⟨info, -, he⟩
  · rwa [he]
  · rw [he]
    refine h.of_start rfl rfl fun y hy => ?_
    simp [view_setInfo, hy]

theorem Watch.fire (t : ℕ) : Watch (m.fire t) := by
  unfold Membership.fire
  cases hl : m.armed.lookup t with
  | none => exact h
  | some x =>
    refine ⟨h.fresh, h.inj, fun t' y z hy => h.owner t' y z (GoMap.of_lookup_erase hy).2,
      fun y j hy => ?_⟩
    rcases h.watched y j hy with ⟨t', ht', ha⟩ | hy
    · by_cases htt : t' = t
      · -- its timer is the one that fires
        subst htt
        obtain rfl : x = y := Option.some.inj (hl.symm.trans ha)
        exact Or.inr (List.mem_append_right _ (List.mem_singleton.2 rfl))
      · exact Or.inl ⟨t', ht', (Finmap.lookup_erase_ne htt).trans ha⟩
    · exact Or.inr (List.mem_append_left _ hy)

/-- A callback that ran leaves its node Dead, or unknown. -/
theorem Watch.callback (x : NodeID) : Watch (m.callback x) := by
  unfold Membership.callback
  split_ifs with hx
  · have hfired : ∀ y ≠ x, y ∈ m.fired → y ∈ m.fired.erase x :=
      fun y hy hmem => (List.mem_erase_of_ne hy).2 hmem
    rcases markDead_cases { m with fired := m.fired.erase x } x with ⟨he, hdead⟩ | ⟨info, hl, -, he⟩
    · rw [he]
      refine h.of_clocks rfl fun y j hy => ⟨⟨j, hy⟩, hfired y ?_⟩
      rintro rfl
      obtain ⟨info, hl, hs⟩ := Option.map_eq_some_iff.1 hy
      have := hdead info hl
      rw [(Prod.mk.inj hs).1] at this
      cases this
    · rw [he]
      refine h.of_cancel rfl hfired (fun j => ?_) fun y hy => ?_
      · simp [view_setInfo]
      · simp only [view_emitEvent, view_queueUpdate, view_cancelTimer, view_setInfo, if_neg hy]
        rfl
  · exact h

theorem Watch.leave : Watch m.leave := by
  refine h.of_clocks rfl fun x j hx => ?_
  rw [view_leave] at hx
  split_ifs at hx
  · obtain ⟨r, -, hr⟩ := Option.map_eq_some_iff.1 hx
    cases (Prod.mk.inj hr).1
  · exact ⟨⟨j, hx⟩, id⟩

end

theorem watch_start (selfID : NodeID) (addrs : Addrs) (inj : Option FaultInjector) :
    Watch (start selfID addrs inj) where
  fresh x t hx := by simp [start, queueUpdate, setInfo, Finmap.lookup_empty] at hx
  inj x y t hx := by simp [start, queueUpdate, setInfo, Finmap.lookup_empty] at hx
  owner t x y hx := by simp [start, queueUpdate, setInfo, Finmap.lookup_empty] at hx
  watched x j hx := by
    rw [view_start] at hx
    split_ifs at hx
    cases hx

/-- The callback of a suspected node declares it Dead. -/
theorem callback_suspect {m : Membership} {x : NodeID} {j : UInt64} (hx : x ∈ m.fired)
    (hv : m.view x = some (.suspect, j)) :
    (m.callback x).view x = some (.dead, j) ∧
      (m.callback x).emitted = m.emitted ++ [⟨.dead, x⟩] := by
  obtain ⟨info, hl, hs⟩ := Option.map_eq_some_iff.1 hv
  obtain ⟨hstatus, rfl⟩ := Prod.mk.inj hs
  rw [callback, if_pos hx]
  rcases markDead_cases { m with fired := m.fired.erase x } x with ⟨-, hdead⟩ | ⟨info', hl', -, he⟩
  · have := hdead info hl
    rw [hstatus] at this
    cases this
  · obtain rfl : info = info' := Option.some.inj (hl.symm.trans hl')
    rw [he]
    refine ⟨?_, rfl⟩
    simp [view_setInfo]

end Membership

/-- The node that `markSuspect` is about to mark. -/
def Ping.marked : Ping → Option NodeID
  | .marking x => some x
  | _ => none

namespace Swim

/-- A transition that drops no suspicion: it is not the end of `Stop`, which cancels the timers, and
    `markSuspect` does not write while an ALIVE update about its node is yet to cancel the timer. -/
def Orderly (s : Swim) : Act → Prop
  | .halt _ => False
  | .mark => ∀ x ∈ s.ping.marked, s.recv.revives x = false
  | _ => True

instance (s : Swim) : ∀ a, Decidable (s.Orderly a)
  | .halt _ => inferInstanceAs (Decidable False)
  | .mark => inferInstanceAs (Decidable (∀ x ∈ s.ping.marked, s.recv.revives x = false))
  | .arrive _ | .read | .apply | .resume | .dispatch _ | .recvAck | .recvTimeout | .recvStop
  | .tick _ _ | .pingReqs _ _ | .pingAck | .pingTimeout | .pingStop | .suspect | .fire _
  | .callback _ | .inject _ | .joinCluster _ | .leave | .stop => inferInstanceAs (Decidable True)

theorem kill_ne_suspect (r : Record) (j : UInt64) : r.kill ≠ some (.suspect, j) := by
  cases r <;> simp [Record.kill]

/-- The suspected nodes are watched, and a node that is being revived is not suspected. -/
structure Watched (s : Swim) : Prop where
  watch : s.m.Watch
  revived : ∀ x, s.recv.revives x = true → ∀ j, s.m.view x ≠ some (.suspect, j)

section
variable {s : Swim} (h : s.Watched)
include h

theorem Watched.apply {u : MembershipUpdate} {rest : List MembershipUpdate} {msg : SwimMessage}
    {remote : UDPAddr} :
    Watched { s with
      m := (s.m.beginUpdate u).1
      recv := .after u rest msg remote (s.m.beginUpdate u).2 } := by
  refine ⟨h.watch.beginUpdate u, fun x hx j => ?_⟩
  have hb := s.m.beginUpdate_begins u
  generalize s.m.beginUpdate u = r at hb hx ⊢
  cases hb with
  | alive =>
    obtain rfl : u.nodeID = x := of_decide_eq_true hx
    simp [Membership.view_setInfo]
  | _ => cases hx

theorem Watched.resume {todo : Membership.Todo} {u : MembershipUpdate}
    {rest : List MembershipUpdate} {msg : SwimMessage} {remote : UDPAddr}
    (hrecv : s.recv = .updating todo u rest msg remote) :
    Watched { s with
      m := (s.m.resumeUpdate u todo).1
      recv := .after u rest msg remote (s.m.resumeUpdate u todo).2 } := by
  have hrev : todo = .stamp ∨ todo = .cancel → s.recv.revives u.nodeID = true := by
    rintro (rfl | rfl) <;> simp [hrecv, Recv.revives]
  refine ⟨h.watch.resumeUpdate u fun hc => h.revived _ (hrev (Or.inr hc)), fun x hx j => ?_⟩
  have hr := s.m.resumeUpdate_resumes u todo
  generalize s.m.resumeUpdate u todo = r at hr hx ⊢
  cases hr with
  | @stamp info hl =>
    -- the status stays
    obtain rfl : u.nodeID = x := of_decide_eq_true hx
    have hold := h.revived _ (hrev (Or.inl rfl)) info.incarnation
    rw [s.m.view_eq_some _ hl] at hold
    intro hnew
    rw [Membership.view_setInfo, if_pos rfl] at hnew
    exact hold (by rw [(Prod.mk.inj (Option.some.inj hnew)).1])
  | _ => cases hx

theorem Watched.step (resolve : GoString → Option UDPAddr) {a : Act} (ha : s.Orderly a) :
    (s.step resolve a).Watched := by
  have heff := step_effect resolve s a
  generalize s.step resolve a = s' at heff ⊢
  obtain ⟨hwatch, hrevived⟩ := h
  cases heff with
  | apply => exact Watched.apply ⟨hwatch, hrevived⟩
  | resume hrecv => exact Watched.resume ⟨hwatch, hrevived⟩ hrecv
  | read | ping | pingReq | join | ignore | relay | recvTimeout =>
    exact ⟨⟨hwatch.fresh, hwatch.inj, hwatch.owner, hwatch.watched⟩, fun x hx => by cases hx⟩
  | @ack ord msg =>
    obtain ⟨_, _, he⟩ := s.m.handleAck_eq msg
    rw [he]
    exact ⟨⟨hwatch.fresh, hwatch.inj, hwatch.owner, hwatch.watched⟩, fun x hx => by cases hx⟩
  | recvStop _ hr =>
    exact ⟨hwatch, fun x hx => by rcases hr with rfl | rfl <;> cases hx⟩
  | @mark y hping =>
    refine ⟨hwatch.setSuspect y, fun x hx j => ?_⟩
    have hxy : x ≠ y := by
      rintro rfl
      have hfree : s.recv.revives x = false := ha x (by rw [hping]; rfl)
      rw [show s.recv.revives x = true from hx] at hfree
      cases hfree
    show (s.m.setSuspect y).view x ≠ _
    rw [s.m.view_setSuspect, if_neg hxy]
    exact hrevived x hx j
  | fire t =>
    refine ⟨hwatch.fire t, ?_⟩
    obtain ⟨_, _, he⟩ := s.m.fire_eq t
    rw [he]
    exact hrevived
  | callback y =>
    refine ⟨hwatch.callback y, fun x hx j => ?_⟩
    show (s.m.callback y).view x ≠ _
    unfold Membership.callback
    split_ifs
    · rw [Membership.view_markDead]
      split_ifs
      · exact kill_ne_suspect _ j
      · exact hrevived x hx j
    · exact hrevived x hx j
  | leave =>
    refine ⟨hwatch.leave, fun x hx j hleft => ?_⟩
    rw [show Membership.view _ x = s.m.leave.view x from rfl, s.m.view_leave] at hleft
    split_ifs at hleft
    · obtain ⟨r, -, hr⟩ := Option.map_eq_some_iff.1 hleft
      cases (Prod.mk.inj hr).1
    · exact hrevived x hx j hleft
  | halt ord => exact ha.elim
  | _ => exact ⟨⟨hwatch.fresh, hwatch.inj, hwatch.owner, hwatch.watched⟩, hrevived⟩

end

section
variable (resolve : GoString → Option UDPAddr) (selfID : NodeID) (addrs : Addrs)
  (injector : Option FaultInjector)

theorem start_watched : (start selfID addrs injector).Watched where
  watch := Membership.watch_start selfID addrs injector
  revived x hx := by cases hx

/-- **No suspect is forgotten.**  Whatever a node receives, probes and times out, in every orderly
    run: a suspected node has an armed timer or a callback that waits; and unless the ping loop holds
    the lock, these declare it Dead if they run next, with one Dead event. -/
theorem no_suspect_forgotten (acts : List Act)
    (hacts : Along (step resolve) Orderly (start selfID addrs injector) acts) (x : NodeID)
    (j : UInt64) :
    let s := run (step resolve) (start selfID addrs injector) acts
    s.m.view x = some (.suspect, j) →
    s.m.Ticking x ∧ (s.ping.isMarking = false →
      ∃ due, (due = [.callback x] ∨ ∃ t, due = [.fire t, .callback x]) ∧
        (run (step resolve) s due).m.view x = some (.dead, j) ∧
        (run (step resolve) s due).m.emitted = s.m.emitted ++ [⟨.dead, x⟩]) := by
  intro s hx
  have hwatched : s.Watched := hacts.inv (fun _ _ hs ha => Watched.step hs resolve ha)
    (start_watched selfID addrs injector)
  have hticks := hwatched.watch.watched x j hx
  refine ⟨hticks, fun hlock => ?_⟩
  have hcallback : ∀ m, (step resolve { s with m } (.callback x)).m = m.callback x := fun m => by
    simp [step, callback, hlock]
  rcases hticks with ⟨t, -, ht⟩ | hfired
  · refine ⟨[.fire t, .callback x], Or.inr ⟨t, rfl⟩, ?_⟩
    have hfire : s.m.fire t = { s.m with armed := s.m.armed.erase t, fired := s.m.fired ++ [x] } := by
      rw [Membership.fire, ht]
    show (step resolve { s with m := s.m.fire t } (.callback x)).m.view x = _ ∧
      (step resolve { s with m := s.m.fire t } (.callback x)).m.emitted = _
    rw [hcallback, hfire]
    exact Membership.callback_suspect (List.mem_append_right _ (List.mem_singleton.2 rfl)) hx
  · refine ⟨[.callback x], Or.inl rfl, ?_⟩
    show (step resolve { s with m := s.m } (.callback x)).m.view x = _ ∧
      (step resolve { s with m := s.m } (.callback x)).m.emitted = _
    rw [hcallback]
    exact Membership.callback_suspect hfired hx

end

/-- Node `a` reads a message by which `b` joins, is suspected, and is alive again. -/
def readsOfB : List Act :=
  [.arrive ⟨[], ⟨.ack, ascii ['c'], [], [], 0, [.report (ascii ['b']) .alive 0,
    .report (ascii ['b']) .suspect 0, .report (ascii ['b']) .alive 1]⟩⟩, .read]

theorem no_suspect_forgotten_report :
    (run (step some) (start (ascii ['a']) ⟨[], [], []⟩ none)
      (readsOfB ++ applies ++ applies)).m.Ticking (ascii ['b']) :=
  (no_suspect_forgotten some (ascii ['a']) ⟨[], [], []⟩ none (readsOfB ++ applies ++ applies)
    (by decide +kernel) (ascii ['b']) 0 (by decide +kernel)).1

/-- The records of `a`, which has learned of `b`. -/
def abRecords : List (Σ _ : NodeID, NodeInfo) :=
  [⟨ascii ['a'], .new (ascii ['a']) ⟨[], [], []⟩⟩, ⟨ascii ['b'], .new (ascii ['b']) ⟨[], [], []⟩⟩]

theorem id_perm (nodes : List NodeInfo) : (id nodes).Perm nodes := .refl nodes

/-- The shuffle that keeps the order. -/
def inOrder : Shuffle := ⟨id, id_perm⟩

/-- A probe of `b` fails, and `markSuspect` writes while the last update is yet to cancel the
    timer. -/
noncomputable def suspectedMeanwhile : List Act :=
  readsOfB ++ applies ++
    [.tick (.listing abRecords) 0, .pingTimeout, .pingReqs (.listing abRecords) inOrder] ++ applies ++
    [.apply, .suspect, .mark, .resume, .resume, .resume]

-- a run that is not orderly: `b` is Suspect, and no timer will declare it dead
example :
    let s := run (step some) (start (ascii ['a']) ⟨[], [], []⟩ none) suspectedMeanwhile
    s.m.view (ascii ['b']) = some (.suspect, 1) ∧ ¬ s.m.Ticking (ascii ['b']) := by
  decide +kernel

end Swim

end DistCache
