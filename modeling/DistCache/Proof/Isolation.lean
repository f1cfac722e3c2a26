/-
  A node that the fault injector has failed.

  It drops every datagram it reads and suppresses every ping, so it tells nothing to the others and
  learns nothing from them; its peers become suspected and dead one after another.
-/
import DistCache.Proof.Detector

namespace DistCache.Swim

open Lib

/-- What a failed node may not do to be isolated. -/
def Act.reachesOut : Act → Bool
  | .inject _ | .joinCluster _ => true
  | _ => false

/-- What an isolated node has become since `s₀`. -/
structure Isolated (s₀ s : Swim) : Prop where
  failed : ∀ x, s.m.isBlocked x = true
  recv : s.recv = .reading ∨ s.recv = .exited
  sent : s.sent = s₀.sent
  incarnation : s.m.incarnation = s₀.m.incarnation
  alive : ∀ x i, s.m.view x = some (.alive, i) → s₀.m.view x = some (.alive, i)
  events : ∃ evs, s.m.emitted = s₀.m.emitted ++ evs ∧
    ∀ ev ∈ evs, ev.type = .suspect ∨ ev.type = .dead

section
variable (resolve : GoString → Option UDPAddr) {s₀ s : Swim}

/-- A transition that keeps the records, the messages and the events. -/
theorem Isolated.of_same (h : s₀.Isolated s) {s' : Swim} (hm : ∀ x, s'.m.isBlocked x = s.m.isBlocked x)
    (hr : s'.recv = .reading ∨ s'.recv = .exited) (hs : s'.sent = s.sent)
    (hi : s'.m.incarnation = s.m.incarnation)
    (hv : ∀ x i, s'.m.view x = some (.alive, i) → s.m.view x = some (.alive, i))
    (he : ∃ evs, s'.m.emitted = s.m.emitted ++ evs ∧
      ∀ ev ∈ evs, ev.type = .suspect ∨ ev.type = .dead) : s₀.Isolated s' where
  failed x := (hm x).trans (h.failed x)
  recv := hr
  sent := hs.trans h.sent
  incarnation := hi.trans h.incarnation
  alive x i hx := h.alive x i (hv x i hx)
  events := by
    obtain ⟨evs, hevs, htype⟩ := h.events
    obtain ⟨evs', hevs', htype'⟩ := he
    refine ⟨evs ++ evs', by rw [hevs', hevs, List.append_assoc], fun ev hev => ?_⟩
    rcases List.mem_append.1 hev with hev | hev
    · exact htype ev hev
    · exact htype' ev hev

/-- A transition that touches neither records nor events. -/
theorem Isolated.of_view (h : s₀.Isolated s) {s' : Swim} (hm : ∀ x, s'.m.isBlocked x = s.m.isBlocked x)
    (hr : s'.recv = .reading ∨ s'.recv = .exited) (hs : s'.sent = s.sent)
    (hi : s'.m.incarnation = s.m.incarnation) (hv : ∀ x, s'.m.view x = s.m.view x)
    (he : s'.m.emitted = s.m.emitted) : s₀.Isolated s' :=
  h.of_same hm hr hs hi (fun x i hx => (hv x) ▸ hx)
    ⟨[], by rw [he, List.append_nil], fun _ hev => by cases hev⟩

theorem Isolated.read (h : s₀.Isolated s) : s₀.Isolated s.read := by
  unfold Swim.read
  split
  · exact h.of_view (fun _ => by rw [if_pos (h.failed _)]) (by rw [if_pos (h.failed _)]; exact h.recv)
      (by rw [if_pos (h.failed _)]) (by rw [if_pos (h.failed _)])
      (fun _ => by rw [if_pos (h.failed _)]) (by rw [if_pos (h.failed _)])
  · exact h

/-- Every ping is suppressed. -/
theorem Isolated.tick (h : s₀.Isolated s) (ord : RangeOrder NodeID NodeInfo) (i : ℕ) :
    s₀.Isolated (s.tick resolve ord i) := by
  unfold Swim.tick
  split
  · rename_i target _ _
    have hnone : s.m.sendPing resolve target.addrs.gossipAddr target.id = none := by
      rw [Membership.sendPing, if_pos (h.failed _)]
    rw [hnone]
    exact h.of_view (fun _ => rfl) h.recv rfl rfl (fun _ => rfl) rfl
  · exact h

/-- So is every ping-req. -/
theorem Isolated.pingReqs (h : s₀.Isolated s) (ord : RangeOrder NodeID NodeInfo)
    (shuffle : Shuffle) : s₀.Isolated (s.pingReqs resolve ord shuffle) := by
  unfold Swim.pingReqs
  split
  · rename_i targetID _
    cases hsend : s.m.sendPingReqs resolve ord shuffle targetID with
    | none => exact h.of_view (fun _ => rfl) h.recv rfl rfl (fun _ => rfl) rfl
    | some r =>
      obtain ⟨ch, m, ds⟩ := r
      have hds : ds = [] := by
        unfold Membership.sendPingReqs at hsend
        split_ifs at hsend
        cases hsend
        refine List.filterMap_eq_nil_iff.2 fun proxy _ => ?_
        rw [if_pos (h.failed _)]
      obtain ⟨-, rfl, -⟩ := sendPingReqs_eq_some resolve hsend
      subst hds
      exact h.of_view (fun _ => rfl) h.recv (List.append_nil _) rfl (fun _ => rfl) rfl
  · exact h

/-- The transitions that read or send. -/
def Act.polls : Act → Bool
  | .read | .tick .. | .pingReqs .. => true
  | _ => false

/-- The other transitions, by their effect. -/
theorem Isolated.of_effect (h : s₀.Isolated s) {a : Act} {s' : Swim} (heff : Effect resolve s a s')
    (hm : ∀ x, s'.m.isBlocked x = s.m.isBlocked x) (ha : a.reachesOut = false)
    (hpolls : a.polls = false) : s₀.Isolated s' := by
  -- the receive loop handles no message
  have hrecv : ∀ {rest : List MembershipUpdate} {msg : SwimMessage} {remote : UDPAddr},
      s.recv ≠ .applying rest msg remote := by
    intro rest msg remote he
    rcases h.recv with hr | hr <;> rw [hr] at he <;> cases he
  cases heff with
  | apply hr | ping hr | ack hr | pingReq hr | join hr | ignore hr => exact absurd hr hrecv
  | resume hr | relay hr => rcases h.recv with he | he <;> rw [he] at hr <;> cases hr
  | drop | read | tick | pingReqs => cases hpolls
  | inject | joinCluster => cases ha
  | same => exact h
  | recvStop _ hr => exact h.of_view hm hr rfl rfl (fun _ => rfl) rfl
  | recvTimeout => exact h.of_view hm (Or.inl rfl) rfl rfl (fun _ => rfl) rfl
  | arrive | pingMove | pingTimeout | suspect | stop =>
    exact h.of_view hm h.recv rfl rfl (fun _ => rfl) rfl
  | fire t =>
    obtain ⟨_, _, he⟩ := s.m.fire_eq t
    exact h.of_view hm h.recv rfl (by rw [he]) (fun x => by rw [he]; rfl) (by rw [he])
  | halt ord =>
    obtain ⟨_, he⟩ := s.m.stopTimers_eq ord
    exact h.of_view hm h.recv rfl (by rw [he]) (fun x => by rw [he]; rfl) (by rw [he])
  | @mark y =>
    refine h.of_same hm h.recv rfl ?_ (fun x i hx => ?_) ?_
    · dsimp only
      rcases s.m.setSuspect_cases y with ⟨he, -⟩ | ⟨_, -, he⟩
      · rw [he]
      · rw [he]
        rfl
    · change (s.m.setSuspect y).view x = _ at hx
      rw [Membership.view_setSuspect] at hx
      split_ifs at hx
      · exact absurd rfl (down_map (by simp) _ _ _ hx)
      · exact hx
    · dsimp only
      rcases s.m.setSuspect_cases y with ⟨he, -⟩ | ⟨_, -, he⟩ <;> rw [he]
      · exact ⟨[], (List.append_nil _).symm, fun _ hev => by cases hev⟩
      · refine ⟨[⟨.suspect, y⟩], rfl, fun ev hev => Or.inl ?_⟩
        rw [List.mem_singleton.1 hev]
  | callback y =>
    refine h.of_same hm h.recv rfl ?_ (fun x i hx => ?_) ?_
    · dsimp only
      unfold Membership.callback
      split_ifs
      · rcases Membership.markDead_cases { s.m with fired := s.m.fired.erase y } y with
          ⟨he, -⟩ | ⟨_, -, -, he⟩
        · rw [he]
        · rw [he]
          rfl
      · rfl
    · change (s.m.callback y).view x = _ at hx
      unfold Membership.callback at hx
      split_ifs at hx
      · rw [Membership.view_markDead] at hx
        split_ifs at hx
        · exact absurd rfl (down_kill _ _ _ hx)
        · exact hx
      · exact hx
    · dsimp only
      unfold Membership.callback
      split_ifs
      · rcases Membership.markDead_cases { s.m with fired := s.m.fired.erase y } y with
          ⟨he, -⟩ | ⟨_, -, -, he⟩ <;> rw [he]
        · exact ⟨[], (List.append_nil _).symm, fun _ hev => by cases hev⟩
        · refine ⟨[⟨.dead, y⟩], rfl, fun ev hev => Or.inr ?_⟩
          rw [List.mem_singleton.1 hev]
      · exact ⟨[], (List.append_nil _).symm, fun _ hev => by cases hev⟩
  | leave =>
    refine h.of_same hm h.recv rfl rfl (fun x i hx => ?_)
      ⟨[], (List.append_nil _).symm, fun _ hev => by cases hev⟩
    change s.m.leave.view x = _ at hx
    rw [Membership.view_leave] at hx
    split_ifs at hx
    · exact absurd rfl (down_map (by simp) _ _ _ hx)
    · exact hx

theorem Isolated.step (h : s₀.Isolated s) {a : Act} (ha : a.reachesOut = false) :
    s₀.Isolated (s.step resolve a) := by
  have hinject : a.isInject = false := by cases a <;> first | rfl | cases ha
  have heff := h.of_effect resolve (step_effect resolve s a) (step_isBlocked resolve s hinject) ha
  cases a with
  | read => exact h.read
  | tick ord i => exact h.tick resolve ord i
  | pingReqs ord shuffle => exact h.pingReqs resolve ord shuffle
  | _ => exact heff rfl

/-- **A failed node is isolated.**  Let the fault injector fail a node that is not in the middle of a
    message.  As long as it stays failed and joins no cluster, whatever arrives and whatever times
    out: it sends nothing, its incarnation stays, no peer becomes Alive, and the events it emits
    are Suspect and Dead ones. -/
theorem failed_node_isolated (s : Swim) (inj : FaultInjector) (hinj : s.m.injector = some inj)
    (hfailed : inj.failed = true) (hrecv : s.recv = .reading) (acts : List Act)
    (hacts : ∀ a ∈ acts, a.reachesOut = false) :
    let s' := run (step resolve) s acts
    s'.sent = s.sent ∧ s'.m.incarnation = s.m.incarnation ∧
      (∀ x i, s'.m.view x = some (.alive, i) → s.m.view x = some (.alive, i)) ∧
      ∃ evs, s'.m.emitted = s.m.emitted ++ evs ∧
        ∀ ev ∈ evs, ev.type = .suspect ∨ ev.type = .dead := by
  intro s'
  have hstart : s.Isolated s :=
    ⟨fun x => by simp [Membership.isBlocked, hinj, hfailed], Or.inl hrecv, rfl, rfl, fun _ _ => id,
      [], (List.append_nil _).symm, fun _ hev => by cases hev⟩
  have hend : s.Isolated s' :=
    (Along.of_forall (P := fun a : Act => a.reachesOut = false) hacts s).inv
      (I := fun s' : Swim => s.Isolated s') (fun _ _ h ha => h.step resolve ha) hstart
  exact ⟨hend.sent, hend.incarnation, hend.alive, hend.events⟩

end

/-- Node `a`, which has learned of `b` and is then failed. -/
noncomputable def failedNode : Swim :=
  run (step some) (start (ascii ['a']) ⟨[], [], []⟩ none) (hearsOfB ++ [.inject (some ⟨true, ∅⟩)])

/-- `b` pings it, and it tries to ping `b`. -/
noncomputable def inVain : List Act :=
  [.arrive ⟨[], ⟨.ping, ascii ['b'], [], [], 0, [.report (ascii ['c']) .alive 0]⟩⟩, .read,
    .tick (.listing abRecords) 0, .pingReqs (.listing abRecords) inOrder, .suspect, .mark]

theorem failed_node_isolated_b :
    (run (step some) failedNode inVain).m.view (ascii ['b']) = some (.suspect, 0) ∧
      (run (step some) failedNode inVain).sent = failedNode.sent := by
  refine ⟨by decide +kernel, ?_⟩
  exact (failed_node_isolated some failedNode ⟨true, ∅⟩ rfl rfl (by decide +kernel) inVain
    (by decide +kernel)).1

end DistCache.Swim
