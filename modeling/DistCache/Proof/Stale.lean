/-
  Stale gossip: what the recorded incarnation of a peer protects it from.

  The incarnation of a record never decreases (`call_mono`), but reports do not
  write it, and an Alive peer does not take over the incarnation of an ALIVE
  update.  So a peer that is down is only protected from old ALIVE updates, and a
  revived one from old reports, as far as the record shows them to be old
  (`Timely`).
-/
import DistCache.Proof.Gossip

namespace DistCache

open Lib DistCache.Membership

/-- What a call can do to a known record `(s, j)` of `x`: keep it, bring the peer down
    without touching the incarnation, or revive it by an ALIVE update. -/
inductive Effect (x : NodeID) (op : Method) (s : NodeStatus) (j : UInt64) :
    NodeStatus → UInt64 → Prop
  | keep : Effect x op s j s j
  | down {s' : NodeStatus} : s'.IsDown →
      (∀ u, op = .applyUpdate u → u.nodeID = x ∧ u.status = s' ∧ j ≤ u.incarnation) →
      Effect x op s j s' j
  | revive {u : MembershipUpdate} : op = .applyUpdate u → u.nodeID = x → u.status = .alive →
      s ≠ .alive → j ≤ u.incarnation → Effect x op s j .alive u.incarnation

section
variable {x : NodeID} {m : Membership} {op : Method} {s : NodeStatus} {j : UInt64}

/-! ## One call -/

theorem apply_effect (s : NodeStatus) (j : UInt64) (u : MembershipUpdate) :
    ∃ s' j', Record.apply (some (s, j)) u = some (s', j') ∧
      Effect u.nodeID (.applyUpdate u) s j s' j' := by
  by_cases hu : j ≤ u.incarnation → u.status ≠ .alive
  · by_cases hd : u.status.IsDown ∧ j ≤ u.incarnation
    · by_cases hs : Record.apply (some (s, j)) u = some (s, j)
      · exact ⟨s, j, hs, .keep⟩
      · have he : Record.apply (some (s, j)) u = some (u.status, j) := by
          have hlt := UInt64.not_lt.2 hd.2
          rcases hd.1 with h | h | h <;> simp_all [Record.apply, Record.update]
        refine ⟨u.status, j, he, .down hd.1 fun v hv => ?_⟩
        cases hv
        exact ⟨rfl, rfl, hd.2⟩
    · refine ⟨s, j, ?_, .keep⟩
      obtain ⟨nodeID, addrs, st, i⟩ := u
      by_cases hi : i < j
      · exact Record.apply_stale hi
      · have hle : j ≤ i := UInt64.not_lt.1 hi
        cases st with
        | alive => exact absurd rfl (hu hle)
        | unknown n => simp [Record.apply, Record.update]
        | _ => exact absurd ⟨by simp [NodeStatus.IsDown], hle⟩ hd
  · obtain ⟨hi, ha⟩ := Classical.not_imp.1 hu
    rw [not_not] at ha
    by_cases hs : s = .alive
    · exact ⟨s, j, by rw [hs, Record.apply_alive_of_alive ha], .keep⟩
    · exact ⟨_, _, Record.apply_alive ha hi hs, .revive rfl rfl ha hs hi⟩

theorem call_effect (h : m.view x = some (s, j)) (op : Method) :
    ∃ s' j', (m.call op).view x = some (s', j') ∧ Effect x op s j s' j' := by
  cases op with
  | applyUpdate u =>
    by_cases hc : x = u.nodeID ∧ x ≠ m.selfID
    · obtain ⟨s', j', he, hf⟩ := apply_effect s j u
      rw [← hc.1] at hf
      refine ⟨s', j', ?_, hf⟩
      rw [call, view_applyUpdate, if_pos hc, h]
      exact he
    · exact ⟨s, j, by rw [call, view_applyUpdate, if_neg hc, h], .keep⟩
  | markSuspect y =>
    by_cases hy : x = y
    · have hv : (m.call (.markSuspect y)).view x = Record.probe (some (s, j)) := by
        rw [call, view_markSuspect, if_pos hy, h]
      simp only [Record.probe] at hv
      split_ifs at hv
      · exact ⟨s, j, hv, .keep⟩
      · exact ⟨_, j, hv, .down (Or.inl rfl) fun u hu => by cases hu⟩
    · exact ⟨s, j, by rw [call, view_markSuspect, if_neg hy, h], .keep⟩
  | markDead y =>
    by_cases hy : x = y
    · have hv : (m.call (.markDead y)).view x = Record.kill (some (s, j)) := by
        rw [call, view_markDead, if_pos hy, h]
      exact ⟨_, j, hv, .down (Or.inr (Or.inl rfl)) fun u hu => by cases hu⟩
    · exact ⟨s, j, by rw [call, view_markDead, if_neg hy, h], .keep⟩

/-- A peer that becomes known is Alive, by an ALIVE update. -/
theorem call_unknown (h : m.view x = none) (op : Method) :
    (m.call op).view x = none ∨ ∃ i, (m.call op).view x = some (.alive, i) := by
  cases op with
  | applyUpdate u =>
    rw [call, view_applyUpdate, h]
    split_ifs with hc
    · by_cases hs : u.status = .alive
      · exact Or.inr ⟨u.incarnation, by simp [Record.update, hs]⟩
      · exact Or.inl (by simp [Record.update, hs])
    · exact Or.inl rfl
  | markSuspect y => left; rw [call, view_markSuspect, h]; simp [Record.probe]
  | markDead y => left; rw [call, view_markDead, h]; simp [Record.kill]

/-- **The recorded incarnation of a peer never decreases.** -/
theorem call_mono (h : m.view x = some (s, j)) (ops : List Method) :
    ∃ s' j', (run call m ops).view x = some (s', j') ∧ j ≤ j' := by
  induction ops generalizing m s j with
  | nil => exact ⟨s, j, h, UInt64.le_refl j⟩
  | cons op ops ih =>
    obtain ⟨s₁, j₁, h₁, hc⟩ := call_effect h op
    have hj : j ≤ j₁ := by
      cases hc with
      | keep => exact UInt64.le_refl _
      | down => exact UInt64.le_refl _
      | revive _ _ _ _ hi => exact hi
    obtain ⟨s₂, j₂, h₂, hj₂⟩ := ih h₁
    exact ⟨s₂, j₂, h₂, UInt64.le_trans hj hj₂⟩

end

/-! ## Resurrection -/

/-- The call brings `x` to Suspect, Dead or Left. -/
def BringsDown (x : NodeID) (m : Membership) (op : Method) : Prop :=
  ∃ s j, (m.call op).view x = some (s, j) ∧ s.IsDown ∧ (m.view x).map Prod.fst ≠ some s

/-- The call returns `x` to Alive. -/
def Revives (x : NodeID) (m : Membership) (op : Method) : Prop :=
  (∃ s j, m.view x = some (s, j) ∧ s ≠ .alive) ∧ ((m.call op).view x).map Prod.fst = some .alive

/-- The incarnation on the strength of which a call acts on `x`: that of the update, or
    the recorded one for a local suspicion. -/
def strength (x : NodeID) (m : Membership) : Method → UInt64
  | .applyUpdate u => u.incarnation
  | _ => ((m.view x).map Prod.snd).getD 0

/-- No ALIVE update carries the recorded incarnation of `x` while it is not Alive, and no
    report that brings `x` down carries a newer one. -/
def Timely (x : NodeID) (m : Membership) (op : Method) : Prop :=
  ∀ u, op = .applyUpdate u → u.nodeID = x → ∀ s j, m.view x = some (s, j) →
    (u.status = .alive → s ≠ .alive → u.incarnation ≠ j) ∧
      (BringsDown x m op → u.incarnation ≤ j)

section
variable {x : NodeID} {m : Membership} {op : Method}

/-- A peer is brought down on the strength of its recorded incarnation. -/
theorem BringsDown.strength_eq (hd : BringsDown x m op) (ht : Timely x m op) :
    ∃ s, (m.call op).view x = some (s, strength x m op) := by
  obtain ⟨s', j', hv, hdown, hne⟩ := hd
  rcases hr : m.view x with _ | ⟨s, j⟩
  · rcases call_unknown hr op with h | ⟨i, h⟩ <;> rw [h] at hv <;> cases hv
    exact absurd rfl hdown.ne_alive
  · obtain ⟨s₁, j₁, h₁, heff⟩ := call_effect hr op
    rw [h₁] at hv
    cases hv
    cases heff with
    | keep => exact absurd (by rw [hr]; rfl) hne
    | revive => exact absurd rfl hdown.ne_alive
    | down _ hu =>
      refine ⟨s', ?_⟩
      rw [h₁]
      cases op with
      | applyUpdate u =>
        obtain ⟨hx, -, hi⟩ := hu u rfl
        have hle := (ht u rfl hx s j' hr).2 ⟨s', j', h₁, hdown, hne⟩
        rw [strength, UInt64.le_antisymm hle hi]
      | markSuspect y => simp [strength, hr]
      | markDead y => simp [strength, hr]

/-- A peer is revived by an ALIVE update above its recorded incarnation. -/
theorem Revives.newer (hr : Revives x m op) (ht : Timely x m op) {s : NodeStatus} {j : UInt64}
    (hv : m.view x = some (s, j)) :
    ∃ u, op = .applyUpdate u ∧ u.nodeID = x ∧ u.status = .alive ∧ j < u.incarnation := by
  obtain ⟨⟨s₀, j₀, hv₀, hs₀⟩, hal⟩ := hr
  rw [hv] at hv₀
  cases hv₀
  obtain ⟨s₁, j₁, h₁, heff⟩ := call_effect hv op
  rw [h₁] at hal
  obtain rfl : s₁ = .alive := by simpa using hal
  cases heff with
  | keep => exact absurd rfl hs₀
  | down hd => exact absurd rfl hd.ne_alive
  | revive hop hx ha hs hi =>
    refine ⟨_, hop, hx, ha, ?_⟩
    exact UInt64.lt_of_le_of_ne hi ((ht _ hop hx s j hv).1 ha hs).symm

end

/-- **No resurrection by stale gossip.**  In a run of timely calls, a peer `x` that a call
    `d` has brought down returns to Alive only by an ALIVE update `r` strictly newer
    than the report or recorded incarnation `d` acted on. -/
theorem no_resurrection (x : NodeID) (m : Membership) (before between after : List Method)
    (d r : Method) (h : Along call (Timely x) m (before ++ d :: (between ++ r :: after)))
    (hd : BringsDown x (run call m before) d)
    (hr : Revives x (run call m (before ++ d :: between)) r) :
    ∃ u, r = .applyUpdate u ∧ u.nodeID = x ∧ u.status = .alive ∧
      strength x (run call m before) d < u.incarnation := by
  obtain ⟨-, htd, hrest⟩ := h.split
  obtain ⟨-, htr, -⟩ := hrest.split
  obtain ⟨s, hs⟩ := hd.strength_eq htd
  obtain ⟨s', j', hv, hj⟩ := call_mono hs between
  rw [run_append, run_cons] at hr
  obtain ⟨u, hop, hx, ha, hi⟩ := hr.newer htr hv
  exact ⟨u, hop, hx, ha, UInt64.lt_of_le_of_lt hj hi⟩

/-- A suspicion of `b`, refuted at the next incarnation. -/
theorem no_resurrection_refuted :
    ∃ u, Method.applyUpdate (.report (ascii ['b']) .alive 1) = .applyUpdate u ∧
      u.nodeID = ascii ['b'] ∧ u.status = .alive ∧
      strength (ascii ['b']) (observer .alive 0) (.markSuspect (ascii ['b'])) < u.incarnation := by
  refine no_resurrection (ascii ['b']) (observer .alive 0) [] [] []
    (.markSuspect (ascii ['b'])) (.applyUpdate (.report (ascii ['b']) .alive 1)) ?_ ?_ ?_
  · refine ⟨fun u hu => (nomatch hu), fun u hu _ s j hv => ?_, trivial⟩
    cases hu
    have : (some (s, j) : Record) = some (.suspect, 0) := hv.symm.trans (by decide)
    cases this
    refine ⟨fun _ _ => by decide, fun ⟨s, j, hv, hd, _⟩ => ?_⟩
    have : (some (s, j) : Record) = some (.alive, 1) := hv.symm.trans (by decide)
    cases this
    exact absurd rfl hd.ne_alive
  · exact ⟨.suspect, 0, by decide, by decide, by decide⟩
  · exact ⟨⟨.suspect, 0, by decide, by decide⟩, by decide⟩

/-- A suspicion of `b` at incarnation `0` is undone by an ALIVE update at `0`. -/
theorem resurrected_by_equal_incarnation :
    BringsDown (ascii ['b']) (observer .alive 0) (.markSuspect (ascii ['b'])) ∧
    strength (ascii ['b']) (observer .alive 0) (.markSuspect (ascii ['b'])) = 0 ∧
    Revives (ascii ['b']) ((observer .alive 0).call (.markSuspect (ascii ['b'])))
      (.applyUpdate (.report (ascii ['b']) .alive 0)) :=
  ⟨⟨.suspect, 0, by decide, by decide, by decide⟩, by decide,
    ⟨.suspect, 0, by decide, by decide⟩, by decide⟩

/-! ## Stale reports -/

theorem run_call_selfID (m : Membership) (ops : List Method) : (run call m ops).selfID = m.selfID := by
  refine run_inv (I := fun m' : Membership => m'.selfID = m.selfID) (fun m' op h => ?_) rfl ops
  cases op <;> simp [call, h]

/-- After an ALIVE update about a peer, its record is at least as new, unless the peer was
    Alive at an older incarnation. -/
theorem applyUpdate_alive_le {x : NodeID} {m : Membership} {u : MembershipUpdate}
    (hux : u.nodeID = x) (hua : u.status = .alive) (hx : x ≠ m.selfID)
    (h : ¬ ∃ j, m.view x = some (.alive, j) ∧ j < u.incarnation) :
    ∃ s j, (m.applyUpdate u).view x = some (s, j) ∧ u.incarnation ≤ j := by
  have hv : (m.applyUpdate u).view x = Record.apply (m.view x) u := by
    rw [view_applyUpdate, if_pos ⟨hux.symm, hx⟩]; rfl
  rcases hr : m.view x with _ | ⟨s, j⟩
  · exact ⟨.alive, u.incarnation, by rw [hv, hr]; simp [Record.apply, Record.update, hua],
      UInt64.le_refl _⟩
  · rw [hr] at hv
    by_cases hj : u.incarnation ≤ j
    · obtain ⟨s', j', he, heff⟩ := apply_effect s j u
      refine ⟨s', j', hv.trans he, ?_⟩
      cases heff with
      | keep => exact hj
      | down => exact hj
      | revive hop => cases hop; exact UInt64.le_refl _
    · have hlt := UInt64.not_le.1 hj
      have hs : s ≠ .alive := fun hs => h ⟨j, by rw [hr, hs], hlt⟩
      exact ⟨_, _, hv.trans (Record.apply_alive hua (UInt64.le_of_lt hlt) hs), UInt64.le_refl _⟩

/-- **When stale reports are rejected.**  After an ALIVE update `u` about `x`, no run of
    calls leads to a state in which an older report about `x` changes its status, if
    and only if `u` did not find `x` Alive at an older incarnation. -/
theorem stale_rejected_iff (x : NodeID) (m : Membership) (u : MembershipUpdate)
    (hux : u.nodeID = x) (hua : u.status = .alive) :
    (∀ (ops : List Method) (v : MembershipUpdate), v.nodeID = x → v.status.IsDown →
        v.incarnation < u.incarnation →
        (((run call (m.applyUpdate u) ops).applyUpdate v).view x).map Prod.fst =
          ((run call (m.applyUpdate u) ops).view x).map Prod.fst) ↔
      ¬ (x ≠ m.selfID ∧ ∃ j, m.view x = some (.alive, j) ∧ j < u.incarnation) := by
  constructor
  · rintro h ⟨hx, j, hv, hj⟩
    have hv' : (m.applyUpdate u).view x = some (.alive, j) := by
      rw [view_applyUpdate, if_pos ⟨hux.symm, hx⟩, hv]
      exact Record.apply_alive_of_alive hua
    have hsus := h [] (.report x .suspect j) rfl (Or.inl rfl) hj
    have hx' : x ≠ (m.applyUpdate u).selfID := by rwa [applyUpdate_selfID]
    rw [run_nil, view_applyUpdate, if_pos ⟨rfl, hx'⟩, hv'] at hsus
    simp [Record.update, MembershipUpdate.report] at hsus
  · intro h ops v hvx _ hvi
    rw [view_applyUpdate]
    split_ifs with hc
    · have hx : x ≠ m.selfID := by simpa [run_call_selfID] using hc.2
      obtain ⟨s, j, hv, hj⟩ := applyUpdate_alive_le hux hua hx fun hex => h ⟨hx, hex⟩
      obtain ⟨s', j', hv', hj'⟩ := call_mono hv ops
      rw [hv']
      have hlt := UInt64.lt_of_lt_of_le hvi (UInt64.le_trans hj hj')
      exact congrArg (Option.map Prod.fst) (Record.apply_stale hlt)
    · rfl

/-- An ALIVE update that revives `b` guards it against older reports. -/
theorem stale_rejected_revived :
    ((((observer .suspect 0).applyUpdate (.report (ascii ['b']) .alive 1)).applyUpdate
        (.report (ascii ['b']) .dead 0)).view (ascii ['b'])).map Prod.fst = some .alive :=
  ((stale_rejected_iff (ascii ['b']) (observer .suspect 0) (.report (ascii ['b']) .alive 1) rfl
    rfl).2 (by rintro ⟨-, j, hv, -⟩; revert hv; simp [observer, view_setInfo]) []
    (.report (ascii ['b']) .dead 0) rfl (by decide) (by decide)).trans (by decide)

/-- An ALIVE update that finds `b` Alive does not. -/
theorem stale_accepted_alive :
    (((observer .alive 0).applyUpdate (.report (ascii ['b']) .alive 1)).view (ascii ['b'])).map
        Prod.fst = some .alive ∧
    ((((observer .alive 0).applyUpdate (.report (ascii ['b']) .alive 1)).applyUpdate
        (.report (ascii ['b']) .suspect 0)).view (ascii ['b'])).map Prod.fst = some .suspect := by
  decide

end DistCache
