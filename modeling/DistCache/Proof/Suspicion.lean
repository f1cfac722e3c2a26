/-
  Suspicion timeouts.

  A timer is armed for a node exactly while the node is suspected on its account, or
  while an ALIVE update about it is between its write of the status and the lock; and a
  callback that waits for the lock finds its node Suspect or Dead (`TimerInv`), unless
  the node was revived or left behind the back of the timer (`Settled`).
-/
import DistCache.Proof.Peers

namespace DistCache

open Lib DistCache.Membership

/-! ## Timers and records -/

/-- The timers of `time.AfterFunc` and their callbacks. -/
def Membership.timers (m : Membership) : GoMap ℕ NodeID × GoMap NodeID ℕ × ℕ × List NodeID :=
  (m.armed, m.suspicionTimers, m.nextTimer, m.fired)

/-- `x` is Suspect or Dead. -/
def Doomed (m : Membership) (x : NodeID) : Prop :=
  ∃ st j, m.view x = some (st, j) ∧ (st = .suspect ∨ st = .dead)

/-- `x` is Suspect, or it is being revived. -/
def Held (m : Membership) (recv : Recv) (x : NodeID) : Prop :=
  ∃ st j, m.view x = some (st, j) ∧ (st = .suspect ∨ recv.revives x = true)

/-- Armed timers are for suspected nodes and known to the node, and waiting callbacks are
    for suspected or dead nodes. -/
structure TimerInv (m : Membership) (recv : Recv) : Prop where
  fired : ∀ x ∈ m.fired, Doomed m x
  armed : ∀ t x, m.armed.lookup t = some x →
    m.suspicionTimers.lookup x = some t ∧ Held m recv x
  fresh : ∀ t x, m.suspicionTimers.lookup x = some t → t < m.nextTimer

/-- No callback for `x` waits, and no timer is armed for it. -/
def Idle (m : Membership) (x : NodeID) : Prop := x ∉ m.fired ∧ ∀ t, m.armed.lookup t ≠ some x

theorem Doomed.congr {m m' : Membership} {x : NodeID} (h : Doomed m x)
    (hv : m'.view x = m.view x) : Doomed m' x := by
  rwa [Doomed, hv]

theorem Held.congr {m m' : Membership} {recv recv' : Recv} {x : NodeID} (h : Held m recv x)
    (hv : m'.view x = m.view x) (hr : recv.revives x = true → recv'.revives x = true) :
    Held m' recv' x := by
  obtain ⟨st, j, hx, hst⟩ := h
  exact ⟨st, j, hv.trans hx, hst.imp_right hr⟩

/-! ## The three things a transition does to the timers -/

section
variable {m m' : Membership} {recv recv' : Recv} {x : NodeID} (h : TimerInv m recv)
include h

/-- The timers stay. -/
theorem TimerInv.of_timers (ht : m'.timers = m.timers) (hf : ∀ y ∈ m.fired, Doomed m' y)
    (ha : ∀ t y, m.armed.lookup t = some y → Held m' recv' y) : TimerInv m' recv' := by
  simp only [timers, Prod.mk.injEq] at ht
  obtain ⟨e1, e2, e3, e4⟩ := ht
  refine ⟨by rw [e4]; exact hf, fun t y hy => ?_, by rw [e2, e3]; exact h.fresh⟩
  rw [e1] at hy
  rw [e2]
  exact ⟨(h.armed t y hy).1, ha t y hy⟩

theorem TimerInv.congr (ht : m'.timers = m.timers) (hv : ∀ y, m'.view y = m.view y)
    (hr : ∀ y, recv.revives y = true → recv'.revives y = true) : TimerInv m' recv' :=
  h.of_timers ht (fun y hy => (h.fired y hy).congr (hv y))
    fun t y hy => (h.armed t y hy).2.congr (hv y) (hr y)

/-- After a cancelled timer, no timer is armed for the node. -/
theorem TimerInv.of_cancel (ht : m'.timers = (m.cancelTimer x).timers)
    (hf : ∀ y ∈ m.fired, Doomed m' y) (ha : ∀ y ≠ x, Held m recv y → Held m' recv' y) :
    TimerInv m' recv' := by
  simp only [timers, cancelTimer, stopTimer, Prod.mk.injEq] at ht
  obtain ⟨e1, e2, e3, e4⟩ := ht
  have hsub : ∀ t y, m'.armed.lookup t = some y → m.armed.lookup t = some y ∧ y ≠ x := by
    intro t y hy
    rw [e1] at hy
    cases hl : m.suspicionTimers.lookup x with
    | none =>
      rw [hl] at hy
      refine ⟨hy, fun he => ?_⟩
      rw [he] at hy
      rw [(h.armed t x hy).1] at hl
      cases hl
    | some t' =>
      rw [hl] at hy
      obtain ⟨htt, hy⟩ := GoMap.of_lookup_erase hy
      refine ⟨hy, fun he => htt ?_⟩
      rw [he] at hy
      rw [(h.armed t x hy).1] at hl
      exact Option.some.inj hl
  refine ⟨by rw [e4]; exact hf, fun t y hy => ?_, fun t y hy => ?_⟩
  · obtain ⟨hy, hne⟩ := hsub t y hy
    rw [e2, Finmap.lookup_erase_ne hne]
    exact ⟨(h.armed t y hy).1, ha y hne (h.armed t y hy).2⟩
  · rw [e3]
    rw [e2] at hy
    exact h.fresh t y (GoMap.of_lookup_erase hy).2

/-- A node that becomes suspected gets a timer of its own, in place of the one it had. -/
theorem TimerInv.of_start (ht : m'.timers = ((m.stopTimer x).startTimer x).timers)
    (hf : ∀ y ∈ m.fired, Doomed m' y) (ha : ∀ y ≠ x, Held m recv y → Held m' recv' y)
    (hx : Held m' recv' x) : TimerInv m' recv' := by
  simp only [timers, Prod.mk.injEq] at ht
  obtain ⟨e1, e2, e3, e4⟩ := ht
  have hsub : ∀ t y, m'.armed.lookup t = some y →
      t = m.nextTimer ∧ y = x ∨ t ≠ m.nextTimer ∧ m.armed.lookup t = some y ∧ y ≠ x := by
    intro t y hy
    rw [e1] at hy
    rcases lookup_armed_restart hy with hy' | ⟨hne, hy'⟩
    · exact Or.inl hy'
    · refine Or.inr ⟨hne, hy', fun he => ?_⟩
      -- the timer of `x` itself has been stopped
      subst he
      have hstop : (m.stopTimer y).armed.lookup t = some y :=
        (Finmap.lookup_insert_of_ne _ hne).symm.trans hy
      simp only [stopTimer, (h.armed t y hy').1, Finmap.lookup_erase] at hstop
      cases hstop
  simp only [startTimer, stopTimer] at e2 e3 e4
  refine ⟨by rw [e4]; exact hf, fun t y hy => ?_, fun t y hy => ?_⟩
  · rcases hsub t y hy with ⟨rfl, rfl⟩ | ⟨-, hy, hne⟩
    · rw [e2, Finmap.lookup_insert]
      exact ⟨rfl, hx⟩
    · rw [e2, Finmap.lookup_insert_of_ne _ hne]
      exact ⟨(h.armed t y hy).1, ha y hne (h.armed t y hy).2⟩
  · rw [e3]
    rw [e2] at hy
    by_cases he : y = x
    · rw [he, Finmap.lookup_insert] at hy
      cases hy
      exact Nat.lt_succ_self _
    · rw [Finmap.lookup_insert_of_ne _ he] at hy
      exact (h.fresh t y hy).trans (Nat.lt_succ_self _)

end

/-! ## Steps -/

/-- An ALIVE update that revives a node finds no waiting callback for it, a LEFT update that
    is not stale finds neither a callback nor a timer, and no timer of a node fires while the
    node is being revived. -/
def Swim.Settled (s : Swim) : Swim.Act → Prop
  | .apply => ∀ u rest msg remote, s.recv = .applying (u :: rest) msg remote →
      u.nodeID ≠ s.m.selfID → ∀ st j, s.m.view u.nodeID = some (st, j) → j ≤ u.incarnation →
      (u.status = .alive → st ≠ .alive → u.nodeID ∉ s.m.fired) ∧
        (u.status = .left → Idle s.m u.nodeID)
  | .fire t => ∀ x, s.m.armed.lookup t = some x → s.recv.revives x = false
  | _ => True

section
variable {m : Membership} {recv : Recv} (h : TimerInv m recv)
include h

/-- A write to the record of one node. -/
theorem TimerInv.setInfo {x : NodeID} {info : NodeInfo} {recv' : Recv}
    (hf : x ∈ m.fired → info.status = .suspect ∨ info.status = .dead)
    (ha : ∀ t, m.armed.lookup t = some x → info.status = .suspect ∨ recv'.revives x = true)
    (hr : ∀ y ≠ x, recv.revives y = true → recv'.revives y = true) :
    TimerInv (m.setInfo x info) recv' := by
  have hx : (m.setInfo x info).view x = some (info.status, info.incarnation) := by
    rw [view_setInfo, if_pos rfl]
  have hne : ∀ y ≠ x, (m.setInfo x info).view y = m.view y := fun y hy => by
    rw [view_setInfo, if_neg hy]
  refine h.of_timers rfl (fun y hy => ?_) fun t y hy => ?_
  · by_cases hyx : y = x
    · subst hyx
      exact ⟨_, _, hx, hf hy⟩
    · exact (h.fired y hy).congr (hne y hyx)
  · by_cases hyx : y = x
    · subst hyx
      exact ⟨_, _, hx, ha t hy⟩
    · exact (h.armed t y hy).2.congr (hne y hyx) (hr y hyx)

theorem TimerInv.markDead (x : NodeID) : TimerInv (m.markDead x) recv := by
  rcases m.markDead_cases x with ⟨he, -⟩ | ⟨info, hl, -, he⟩
  · rwa [he]
  · rw [he]
    have hne : ∀ y ≠ x, (m.setInfo x { info with status := .dead }).view y = m.view y :=
      fun y hy => by rw [view_setInfo, if_neg hy]
    refine h.of_cancel rfl (fun y hy => ?_) fun y hy hheld => hheld.congr (hne y hy) id
    by_cases hyx : y = x
    · exact ⟨.dead, info.incarnation, by simp [view_setInfo, hyx], Or.inr rfl⟩
    · exact (h.fired y hy).congr (hne y hyx)

theorem TimerInv.setSuspect (x : NodeID) : TimerInv (m.setSuspect x) recv := by
  rcases m.setSuspect_cases x with ⟨he, -⟩ | ⟨info, hl, he⟩
  · rwa [he]
  · rw [he]
    have hne : ∀ y ≠ x, (m.setInfo x { info with status := .suspect }).view y = m.view y :=
      fun y hy => by rw [view_setInfo, if_neg hy]
    refine h.of_start rfl (fun y hy => ?_) (fun y hy hheld => hheld.congr (hne y hy) id)
      ⟨.suspect, info.incarnation, by simp [view_setInfo], Or.inl rfl⟩
    by_cases hyx : y = x
    · exact ⟨.suspect, info.incarnation, by simp [view_setInfo, hyx], Or.inl rfl⟩
    · exact (h.fired y hy).congr (hne y hyx)

theorem TimerInv.fire {t : ℕ} (hc : ∀ x, m.armed.lookup t = some x → recv.revives x = false) :
    TimerInv (m.fire t) recv := by
  unfold Membership.fire
  cases hl : m.armed.lookup t with
  | none => exact h
  | some x =>
    obtain ⟨-, st, j, hv, hst⟩ := h.armed t x hl
    refine ⟨fun y hy => ?_, fun t' y hy => ?_, h.fresh⟩
    · rcases List.mem_append.1 hy with hy | hy
      · exact h.fired y hy
      · rw [List.mem_singleton.1 hy]
        exact ⟨st, j, hv, Or.inl (hst.resolve_right (by simp [hc x hl]))⟩
    · exact h.armed t' y (GoMap.of_lookup_erase hy).2

theorem TimerInv.callback (x : NodeID) : TimerInv (m.callback x) recv := by
  unfold Membership.callback
  split_ifs with hx
  · have hpop : TimerInv { m with fired := m.fired.erase x } recv :=
      ⟨fun y hy => h.fired y (List.mem_of_mem_erase hy), h.armed, h.fresh⟩
    exact hpop.markDead x
  · exact h

end

section
variable {s : Swim} (h : TimerInv s.m s.recv)
include h

theorem TimerInv.apply {u : MembershipUpdate} {rest : List MembershipUpdate} {msg : SwimMessage}
    {remote : UDPAddr} (hrecv : s.recv = .applying (u :: rest) msg remote)
    (hc : s.Settled .apply) :
    TimerInv (s.m.beginUpdate u).1 (.after u rest msg remote (s.m.beginUpdate u).2) := by
  have hr : ∀ {recv' : Recv}, ∀ y, s.recv.revives y = true → recv'.revives y = true := by
    intro recv' y hy
    rw [hrecv] at hy
    cases hy
  replace hc := hc u rest msg remote hrecv
  have hb := s.m.beginUpdate_begins u
  generalize s.m.beginUpdate u = r at hb
  cases hb with
  | same | refute | suspect | dead => exact h.congr rfl (fun _ => rfl) hr
  | join hself hl hs =>
    have hnone := s.m.view_eq_none _ hl
    refine h.setInfo (fun hx => ?_) (fun t ht => ?_) fun y _ => hr y
    · obtain ⟨st, j, hv, -⟩ := h.fired _ hx
      rw [hnone] at hv
      cases hv
    · obtain ⟨-, st, j, hv, -⟩ := h.armed t _ ht
      rw [hnone] at hv
      cases hv
  | @alive info hself hl hi hs hne =>
    have hfree := (hc hself _ _ (s.m.view_eq_some _ hl) (UInt64.not_lt.1 hi)).1 hs hne
    refine h.setInfo (fun hx => absurd hx hfree) (fun t ht => Or.inr ?_) fun y _ => hr y
    exact decide_eq_true rfl
  | @left info hself hl hi hs =>
    obtain ⟨hfired, harmed⟩ := (hc hself _ _ (s.m.view_eq_some _ hl) (UInt64.not_lt.1 hi)).2 hs
    exact h.setInfo (fun hx => absurd hx hfired) (fun t ht => absurd ht (harmed t)) fun y _ => hr y

theorem TimerInv.resume {todo : Todo} {u : MembershipUpdate} {rest : List MembershipUpdate}
    {msg : SwimMessage} {remote : UDPAddr} (hrecv : s.recv = .updating todo u rest msg remote) :
    TimerInv (s.m.resumeUpdate u todo).1 (.after u rest msg remote (s.m.resumeUpdate u todo).2) := by
  -- only the node of the update is being revived
  have hr : ∀ {recv' : Recv}, ∀ y ≠ u.nodeID, s.recv.revives y = true → recv'.revives y = true := by
    intro recv' y hy hrev
    rw [hrecv] at hrev
    cases todo with
    | stamp | cancel => exact absurd (of_decide_eq_true hrev).symm hy
    | _ => cases hrev
  have hres := s.m.resumeUpdate_resumes u todo
  generalize s.m.resumeUpdate u todo = r at hres
  have hne : ∀ (info : NodeInfo), ∀ y ≠ u.nodeID, (s.m.setInfo u.nodeID info).view y = s.m.view y :=
    fun info y hy => by rw [view_setInfo, if_neg hy]
  -- a section that leaves timers and records alone, outside a revival
  have hquiet : ∀ {m' : Membership} {recv' : Recv}, m'.timers = s.m.timers →
      (∀ y, m'.view y = s.m.view y) → s.recv.revives u.nodeID = false → TimerInv m' recv' := by
    intro m' recv' ht hv hrev
    refine h.congr ht hv fun y hy => ?_
    by_cases hyu : y = u.nodeID
    · rw [hyu, hrev] at hy
      cases hy
    · exact hr y hyu hy
  cases hres with
  | gone todo hl =>
    have hnone := s.m.view_eq_none _ hl
    refine h.of_timers rfl h.fired fun t y hy => ?_
    obtain ⟨-, hheld⟩ := h.armed t y hy
    by_cases hyu : y = u.nodeID
    · obtain ⟨st, j, hv, -⟩ := hheld
      rw [hyu, hnone] at hv
      cases hv
    · exact hheld.congr rfl (hr y hyu)
  | join | queue | emit => exact hquiet rfl (fun _ => rfl) (by rw [hrecv]; rfl)
  | @stamp info hl =>
    have hv := s.m.view_eq_some _ hl
    refine h.setInfo (fun hx => ?_) (fun _ _ => Or.inr (decide_eq_true rfl)) fun y hy => hr y hy
    obtain ⟨st, j, hst, hd⟩ := h.fired _ hx
    rw [hv] at hst
    cases hst
    exact hd
  | cancel =>
    exact h.of_cancel rfl h.fired fun y hy hheld => hheld.congr rfl (hr y hy)
  | @suspect info hl =>
    have hv : (s.m.markSuspectLocked u.nodeID info).view u.nodeID =
        some (.suspect, info.incarnation) := by
      simp [markSuspectLocked, view_setInfo]
    refine h.of_start rfl (fun y hy => ?_) (fun y hy hheld => hheld.congr (hne _ y hy) (hr y hy))
      ⟨_, _, hv, Or.inl rfl⟩
    by_cases hyu : y = u.nodeID
    · rw [hyu]
      exact ⟨_, _, hv, Or.inl rfl⟩
    · exact (h.fired y hy).congr (hne _ y hyu)
  | @bury info hl =>
    refine h.of_cancel rfl (fun y hy => ?_) fun y hy hheld => hheld.congr (hne _ y hy) (hr y hy)
    by_cases hyu : y = u.nodeID
    · exact ⟨.dead, info.incarnation, by simp [view_setInfo, hyu], Or.inr rfl⟩
    · exact (h.fired y hy).congr (hne _ y hyu)

theorem TimerInv.step (resolve : GoString → Option UDPAddr) (hpeers : s.Peers) {a : Swim.Act}
    (hc : s.Settled a) : TimerInv (s.step resolve a).m (s.step resolve a).recv := by
  have heff := Swim.step_effect resolve s a
  generalize s.step resolve a = s' at heff ⊢
  -- outside `applyUpdate` no node is being revived
  have hrest : ∀ {m' : Membership} {recv' : Recv}, m'.timers = s.m.timers →
      (∀ y, m'.view y = s.m.view y) → (∀ y, s.recv.revives y = false) → TimerInv m' recv' := by
    intro m' recv' ht hv hrev
    refine h.congr ht hv fun y hy => ?_
    rw [hrev] at hy
    cases hy
  cases heff with
  | apply hrecv => exact h.apply hrecv hc
  | resume hrecv => exact h.resume hrecv
  | read hrecv | ping hrecv | pingReq hrecv | join hrecv | ignore hrecv | relay hrecv
  | recvTimeout hrecv => exact hrest rfl (fun _ => rfl) (by rw [hrecv]; exact fun _ => rfl)
  | @ack _ msg _ hrecv =>
    obtain ⟨_, _, he⟩ := s.m.handleAck_eq msg
    dsimp only
    rw [he]
    exact hrest rfl (fun _ => rfl) (by rw [hrecv]; exact fun _ => rfl)
  | recvStop hrecv _ =>
    refine hrest rfl (fun _ => rfl) fun y => ?_
    cases hs : s.recv with
    | updating => rw [hs] at hrecv; rcases hrecv with hrecv | hrecv <;> cases hrecv
    | _ => rfl
  | mark => exact h.setSuspect _
  | fire t => exact h.fire hc
  | callback x => exact h.callback x
  | leave =>
    have hother : ∀ y ≠ s.m.selfID, s.m.leave.view y = s.m.view y := fun y hy => by
      rw [view_leave, if_neg hy]
    exact h.of_timers rfl (fun y hy => (h.fired y hy).congr (hother y (hpeers.m.fired y hy)))
      fun t y hy => (h.armed t y hy).2.congr (hother y (hpeers.m.armed t y hy)) id
  | halt ord =>
    have harmed : ∀ t x, (s.m.stopTimers ord).armed.lookup t = some x →
        s.m.armed.lookup t = some x := fun t x => lookup_armed_stopTimers
    obtain ⟨armed, he⟩ := s.m.stopTimers_eq ord
    dsimp only
    rw [he] at harmed ⊢
    exact ⟨h.fired, fun t x hx => h.armed t x (harmed t x hx), h.fresh⟩
  | _ => exact ⟨h.fired, h.armed, h.fresh⟩

end

theorem start_timerInv (selfID : NodeID) (addrs : Addrs) (inj : Option FaultInjector) (recv : Recv) :
    TimerInv (start selfID addrs inj) recv where
  fired x hx := absurd hx List.not_mem_nil
  armed t x hx := by simp [start, queueUpdate, Membership.setInfo, Finmap.lookup_empty] at hx
  fresh t x hx := by simp [start, queueUpdate, Membership.setInfo, Finmap.lookup_empty] at hx

/-- A callback that finds its node Suspect or Dead only acts on a Suspect one. -/
theorem callback_effect {m : Membership} {recv : Recv} (h : TimerInv m recv) (x : NodeID) :
    ((∀ y, (m.callback x).view y = m.view y) ∧ (m.callback x).emitted = m.emitted) ∨
      ∃ j, m.view x = some (.suspect, j) ∧ (m.callback x).view x = some (.dead, j) ∧
        (m.callback x).emitted = m.emitted ++ [⟨.dead, x⟩] := by
  unfold Membership.callback
  split_ifs with hx
  · obtain ⟨s, j, hv, hs⟩ := h.fired x hx
    rcases markDead_cases { m with fired := m.fired.erase x } x with
      ⟨he, -⟩ | ⟨info, hl, hne, he⟩
    · left
      rw [he]
      exact ⟨fun _ => rfl, rfl⟩
    · right
      rw [m.view_eq_some x hl] at hv
      cases hv
      rcases hs with hs | hs
      · refine ⟨info.incarnation, by rw [m.view_eq_some x hl, hs], ?_, ?_⟩
        · rw [he]; simp [view_setInfo]
        · rw [he]; rfl
      · exact absurd hs hne
  · exact Or.inl ⟨fun _ => rfl, rfl⟩

/-! ## Runs -/

namespace Swim

/-- **Suspicion timeouts are safe in settled runs.**  In every interleaving of the sections of
    `applyUpdate` and `markSuspect`, of timers, of callbacks and of everything else that a node
    does, if the run is settled, a callback of `markDead` either changes nothing, or finds its
    node Suspect, makes it Dead and emits one Dead event. -/
theorem suspicion_safe (resolve : GoString → Option UDPAddr) (selfID : NodeID) (addrs : Addrs)
    (injector : Option FaultInjector) (before after : List Act) (x : NodeID)
    (h : Along (step resolve) Settled (start selfID addrs injector)
      (before ++ .callback x :: after)) :
    let s := run (step resolve) (start selfID addrs injector) before
    let s' := s.step resolve (.callback x)
    ((∀ y, s'.m.view y = s.m.view y) ∧ s'.m.emitted = s.m.emitted) ∨
      ∃ j, s.m.view x = some (.suspect, j) ∧ s'.m.view x = some (.dead, j) ∧
        s'.m.emitted = s.m.emitted ++ [⟨.dead, x⟩] := by
  intro s s'
  obtain ⟨hbefore, -, -⟩ := h.split
  have hinv : s.Peers ∧ TimerInv s.m s.recv :=
    hbefore.inv (I := fun s : Swim => s.Peers ∧ TimerInv s.m s.recv)
      (fun s a hs hc => ⟨hs.1.step resolve a, hs.2.step resolve hs.1 hc⟩)
      ⟨start_peers selfID addrs injector, start_timerInv selfID addrs injector _⟩
  have hs' : s' = if s.ping.isMarking then s else { s with m := s.m.callback x } := rfl
  by_cases hlock : s.ping.isMarking
  · rw [hs', if_pos hlock]
    exact Or.inl ⟨fun _ => rfl, rfl⟩
  · rw [hs', if_neg hlock]
    exact callback_effect hinv.2 x

/-- Node `a` reads a message with three updates about `b`: it joins, is suspected, and a third. -/
def hearsOf (third : MembershipUpdate) : List Act :=
  [.arrive ⟨[], ⟨.ack, ascii ['c'], [], [], 0, [.report (ascii ['b']) .alive 0,
    .report (ascii ['b']) .suspect 0, third]⟩⟩, .read] ++ applies ++ applies

/-- The state of `a` after a run. -/
def observed (acts : List Act) : Swim :=
  run (step some) (start (ascii ['a']) ⟨[], [], []⟩ none) acts

/-- The suspicion of `b` times out. -/
def timeout : List Act := hearsOf (.report (ascii ['b']) .alive 1) ++ [.fire 0]

/-- The callback finds `b` Suspect and makes it Dead. -/
theorem suspicion_safe_timeout :
    let s' := (observed timeout).step some (.callback (ascii ['b']))
    (observed timeout).m.view (ascii ['b']) = some (.suspect, 0) ∧
      (((∀ y, s'.m.view y = (observed timeout).m.view y) ∧
          s'.m.emitted = (observed timeout).m.emitted) ∨
        ∃ j, (observed timeout).m.view (ascii ['b']) = some (.suspect, j) ∧
          s'.m.view (ascii ['b']) = some (.dead, j) ∧
          s'.m.emitted = (observed timeout).m.emitted ++ [⟨.dead, ascii ['b']⟩]) := by
  refine ⟨by decide +kernel, suspicion_safe some (ascii ['a']) ⟨[], [], []⟩ none timeout []
    (ascii ['b']) ?_⟩
  refine ⟨trivial, trivial, fun u rest msg remote hrecv _ st j hv => ?_, trivial, trivial, trivial,
    fun u rest msg remote hrecv _ st j hv _ => ?_, trivial, trivial, trivial, fun x _ => rfl,
    trivial, trivial⟩
  · -- `b` is unknown
    cases hrecv
    cases hv
  · cases hrecv
    constructor <;> intro h <;> cases h

/-- `b` refutes after the timer has fired. -/
def refutedLate : List Act := timeout ++ applies

/-- `b` leaves before the timer fires. -/
def leftEarly : List Act := hearsOf (.report (ascii ['b']) .left 0) ++ applies ++ [.fire 0]

/-- The timer fires after the status of `b` is Alive again, and before the lock is taken. -/
def revivedMeanwhile : List Act :=
  hearsOf (.report (ascii ['b']) .alive 1) ++ [.apply, .fire 0]

/-- A callback that already waits kills a node that has refuted, a timer that LEFT does not stop
    kills a node that has left, and a callback that gets the lock before the refutation does
    kills a node that is Alive. -/
theorem suspicion_unsafe :
    ((observed refutedLate).m.view (ascii ['b']) = some (.alive, 1) ∧
      ((observed refutedLate).step some (.callback (ascii ['b']))).m.view (ascii ['b']) =
        some (.dead, 1) ∧
      ((observed refutedLate).step some (.callback (ascii ['b']))).m.emitted =
        (observed refutedLate).m.emitted ++ [⟨.dead, ascii ['b']⟩]) ∧
    ((observed leftEarly).m.view (ascii ['b']) = some (.left, 0) ∧
      ((observed leftEarly).step some (.callback (ascii ['b']))).m.view (ascii ['b']) =
        some (.dead, 0)) ∧
    (observed revivedMeanwhile).m.view (ascii ['b']) = some (.alive, 0) ∧
      ((observed revivedMeanwhile).step some (.callback (ascii ['b']))).m.view (ascii ['b']) =
        some (.dead, 0) := by
  decide +kernel

end Swim

end DistCache
