/-
  What the membership transitions do to the record of one node.

  `Record` is the abstract state of a peer: unknown, or a status with an
  incarnation.  `view m x` is the record of `x` on a node, and every transition
  acts on it as one of the operations of `Record` (`view_applyUpdate`,
  `view_markSuspect`, `view_markDead`, and for the sections of `applyUpdate`
  `view_beginUpdate` and `view_resumeUpdate`).  The sections of a call that is not
  interrupted make up `applyUpdate` (`resume_applyUpdate`).
-/
import DistCache.Membership

namespace DistCache

theorem GoMap.of_lookup_erase {κ α : Type} [DecidableEq κ] {m : GoMap κ α} {k k' : κ} {a : α}
    (h : (m.erase k).lookup k' = some a) : k' ≠ k ∧ m.lookup k' = some a := by
  by_cases hk : k' = k
  · rw [hk, Finmap.lookup_erase] at h
    cases h
  · rw [Finmap.lookup_erase_ne hk] at h
    exact ⟨hk, h⟩

/-! ## Records -/

/-- What a node knows about a peer. -/
abbrev Record := Option (NodeStatus × UInt64)

namespace Record

/-- An update with status `st` and incarnation `i`. -/
def update (r : Record) (st : NodeStatus) (i : UInt64) : Record :=
  match r with
  | none => if st = .alive then some (.alive, i) else none
  | some (s, j) =>
    if i < j then some (s, j)
    else
      match st with
      | .alive => if s = .alive then some (s, j) else some (.alive, i)
      | .suspect => if s = .alive then some (.suspect, j) else some (s, j)
      | .dead => some (.dead, j)
      | .left => some (.left, j)
      | .unknown _ => some (s, j)

/-- What an update does before `applyUpdate` takes the lock. -/
def begin (r : Record) (st : NodeStatus) (i : UInt64) : Record :=
  match r with
  | none => if st = .alive then some (.alive, i) else none
  | some (s, j) =>
    if i < j then some (s, j)
    else
      match st with
      | .alive => some (.alive, j)
      | .left => some (.left, j)
      | .suspect | .dead | .unknown _ => some (s, j)

/-- What a later section of `applyUpdate` does. -/
def resume (r : Record) (todo : Membership.Todo) (i : UInt64) : Record :=
  match todo with
  | .stamp => r.map fun (s, _) => (s, i)
  | .suspect => r.map fun (_, j) => (.suspect, j)
  | .bury => r.map fun (_, j) => (.dead, j)
  | .join | .queue | .cancel | .emit _ => r

/-- A failed probe: a node that is not yet suspected becomes so. -/
def probe : Record → Record
  | none => none
  | some (s, j) => if s = .dead ∨ s = .left ∨ s = .suspect then some (s, j) else some (.suspect, j)

/-- The end of a suspicion. -/
def kill : Record → Record
  | none => none
  | some (_, j) => some (.dead, j)

end Record

namespace Membership

/-- The record of `x`. -/
def view (m : Membership) (x : NodeID) : Record :=
  (m.registry.lookup x).map fun info => (info.status, info.incarnation)

section
variable (m : Membership) (x y : NodeID)

theorem view_setInfo (info : NodeInfo) :
    (m.setInfo y info).view x = if x = y then some (info.status, info.incarnation) else m.view x := by
  unfold view setInfo
  split_ifs with h
  · subst h; simp
  · simp [Finmap.lookup_insert_of_ne _ h]

theorem view_start (selfID : NodeID) (addrs : Addrs) (injector : Option FaultInjector) :
    (start selfID addrs injector).view x = if x = selfID then some (.alive, 0) else none :=
  view_setInfo _ x selfID _

@[simp] theorem view_emitEvent (t : MembershipEventType) : (m.emitEvent t y).view x = m.view x := rfl

@[simp] theorem view_queueUpdate (u : MembershipUpdate) : (m.queueUpdate u).view x = m.view x := rfl

@[simp] theorem view_stopTimer : (m.stopTimer y).view x = m.view x := rfl

@[simp] theorem view_cancelTimer : (m.cancelTimer y).view x = m.view x := rfl

@[simp] theorem view_startTimer : (m.startTimer y).view x = m.view x := rfl

/-! ## The transitions on a record -/

theorem view_eq_some {info : NodeInfo} (h : m.registry.lookup x = some info) :
    m.view x = some (info.status, info.incarnation) := by
  rw [view, h]; rfl

theorem view_eq_none (h : m.registry.lookup x = none) : m.view x = none := by
  rw [view, h]; rfl

theorem view_applyStatus {u : MembershipUpdate} {info : NodeInfo}
    (hl : m.registry.lookup u.nodeID = some info) (hi : ¬ u.incarnation < info.incarnation) :
    (m.applyStatus u info).view x =
      if x = u.nodeID then (m.view x).update u.status u.incarnation else m.view x := by
  by_cases hx : x = u.nodeID
  · subst hx
    rw [if_pos rfl, m.view_eq_some _ hl]
    obtain ⟨nodeID, addrs, st, i⟩ := u
    cases st with
    | alive =>
      by_cases hs : info.status = .alive
      · simp [applyStatus, hs, Record.update, m.view_eq_some _ hl]
      · simp [applyStatus, hs, Record.update, view_setInfo, hi]
    | suspect =>
      by_cases hs : info.status = .alive
      · simp [applyStatus, hs, Record.update, markSuspectLocked, view_setInfo, hi]
      · simp [applyStatus, hs, Record.update, m.view_eq_some _ hl]
    | dead =>
      by_cases hs : info.status = .dead
      · simp [applyStatus, hs, Record.update, m.view_eq_some _ hl]
      · simp [applyStatus, hs, Record.update, view_setInfo, hi]
    | left => simp [applyStatus, Record.update, view_setInfo, hi]
    | unknown n => simp [applyStatus, Record.update, m.view_eq_some _ hl]
  · rw [if_neg hx]
    unfold applyStatus
    split <;> (try split_ifs) <;> simp [markSuspectLocked, view_setInfo, hx]

/-- **`applyUpdate` updates the record of the node it is about**, unless that is the
    node itself. -/
theorem view_applyUpdate (u : MembershipUpdate) :
    (m.applyUpdate u).view x =
      if x = u.nodeID ∧ x ≠ m.selfID then (m.view x).update u.status u.incarnation
      else m.view x := by
  unfold applyUpdate
  by_cases hself : u.nodeID = m.selfID
  · have hcond : ¬ (x = u.nodeID ∧ x ≠ m.selfID) := fun h => h.2 (h.1.trans hself)
    rw [if_pos hself, if_neg hcond]
    split_ifs <;> rfl
  · rw [if_neg hself]
    have hcond : (x = u.nodeID ∧ x ≠ m.selfID) ↔ x = u.nodeID :=
      ⟨fun h => h.1, fun h => ⟨h, h ▸ hself⟩⟩
    simp only [hcond]
    cases hl : m.registry.lookup u.nodeID with
    | none =>
      dsimp only
      by_cases hs : u.status = .alive
      · rw [if_pos hs, view_queueUpdate, view_emitEvent, view_setInfo]
        split_ifs with hx
        · subst hx; rw [m.view_eq_none _ hl]; simp [Record.update, hs, NodeInfo.new]
        · rfl
      · rw [if_neg hs]
        split_ifs with hx
        · subst hx; rw [m.view_eq_none _ hl]; simp [Record.update, hs]
        · rfl
    | some info =>
      dsimp only
      by_cases hi : u.incarnation < info.incarnation
      · rw [if_pos hi]
        split_ifs with hx
        · subst hx; rw [m.view_eq_some _ hl]; simp [Record.update, hi]
        · rfl
      · rw [if_neg hi]
        exact m.view_applyStatus x hl hi

theorem view_markSuspect :
    (m.markSuspect y).view x = if x = y then (m.view x).probe else m.view x := by
  unfold markSuspect
  cases hl : m.registry.lookup y with
  | none =>
    split_ifs with hx
    · subst hx; rw [m.view_eq_none _ hl]; rfl
    · rfl
  | some info =>
    dsimp only
    by_cases hx : x = y
    · subst hx
      rw [if_pos rfl]
      split_ifs with h1 h2
      · rw [m.view_eq_some _ hl]; rcases h1 with h1 | h1 <;> simp [Record.probe, h1]
      · rw [m.view_eq_some _ hl]; simp [Record.probe, h2]
      · rw [m.view_eq_some _ hl]; simp_all [Record.probe, view_setInfo]
    · rw [if_neg hx]
      split_ifs <;> simp [view_setInfo, hx]

theorem view_markDead :
    (m.markDead y).view x = if x = y then (m.view x).kill else m.view x := by
  unfold markDead
  cases hl : m.registry.lookup y with
  | none =>
    split_ifs with hx
    · subst hx; rw [m.view_eq_none _ hl]; rfl
    · rfl
  | some info =>
    dsimp only
    split_ifs with h1 hx hx
    · subst hx; rw [m.view_eq_some _ hl]; simp [Record.kill, h1]
    · rfl
    · subst hx; rw [m.view_eq_some _ hl]; simp [Record.kill, view_setInfo]
    · simp [view_setInfo, hx]

end

/-! ## Timers -/

/-- `Stop` only disarms. -/
theorem lookup_armed_stopTimer {m : Membership} {x y : NodeID} {t : ℕ}
    (h : (m.stopTimer x).armed.lookup t = some y) : m.armed.lookup t = some y := by
  unfold stopTimer at h
  dsimp only at h
  split at h
  · exact h
  · exact (GoMap.of_lookup_erase h).2

/-- A restarted timer is armed, next to those armed before. -/
theorem lookup_armed_restart {m : Membership} {x y : NodeID} {t : ℕ}
    (h : ((m.stopTimer x).startTimer x).armed.lookup t = some y) :
    t = m.nextTimer ∧ y = x ∨ t ≠ m.nextTimer ∧ m.armed.lookup t = some y := by
  have h' : ((m.stopTimer x).armed.insert m.nextTimer x).lookup t = some y := h
  by_cases htn : t = m.nextTimer
  · rw [htn, Finmap.lookup_insert] at h'
    exact Or.inl ⟨htn, (Option.some.inj h').symm⟩
  · rw [Finmap.lookup_insert_of_ne _ htn] at h'
    exact Or.inr ⟨htn, lookup_armed_stopTimer h'⟩

/-! ## The outcomes of the transitions -/

/-- **What `applyUpdate` can do**, with the conditions under which it does. -/
inductive Outcome (m : Membership) (u : MembershipUpdate) : Membership → Prop
  | same : Outcome m u m
  | refute : u.nodeID = m.selfID → u.status = .suspect ∨ u.status = .dead →
      Outcome m u (m.refute u)
  | join : u.nodeID ≠ m.selfID → m.registry.lookup u.nodeID = none → u.status = .alive →
      Outcome m u (((m.setInfo u.nodeID
        { NodeInfo.new u.nodeID u.addrs with incarnation := u.incarnation }).emitEvent .join
          u.nodeID).queueUpdate u)
  | alive {info : NodeInfo} : u.nodeID ≠ m.selfID → m.registry.lookup u.nodeID = some info →
      ¬ u.incarnation < info.incarnation → u.status = .alive → info.status ≠ .alive →
      Outcome m u (((m.setInfo u.nodeID
        { info with status := .alive, incarnation := u.incarnation }).cancelTimer
          u.nodeID).emitEvent .alive u.nodeID)
  | suspect {info : NodeInfo} : u.nodeID ≠ m.selfID → m.registry.lookup u.nodeID = some info →
      ¬ u.incarnation < info.incarnation → u.status = .suspect → info.status = .alive →
      Outcome m u (m.markSuspectLocked u.nodeID info)
  | dead {info : NodeInfo} : u.nodeID ≠ m.selfID → m.registry.lookup u.nodeID = some info →
      ¬ u.incarnation < info.incarnation → u.status = .dead → info.status ≠ .dead →
      Outcome m u (((m.setInfo u.nodeID { info with status := .dead }).cancelTimer
        u.nodeID).emitEvent .dead u.nodeID)
  | left {info : NodeInfo} : u.nodeID ≠ m.selfID → m.registry.lookup u.nodeID = some info →
      ¬ u.incarnation < info.incarnation → u.status = .left →
      Outcome m u ((m.setInfo u.nodeID { info with status := .left }).emitEvent .left u.nodeID)

theorem applyUpdate_outcome (m : Membership) (u : MembershipUpdate) :
    Outcome m u (m.applyUpdate u) := by
  unfold applyUpdate
  by_cases hself : u.nodeID = m.selfID
  · rw [if_pos hself]
    split_ifs with hs
    · exact .refute hself hs
    · exact .same
  · rw [if_neg hself]
    cases hl : m.registry.lookup u.nodeID with
    | none =>
      dsimp only
      split_ifs with hs
      · exact .join hself hl hs
      · exact .same
    | some info =>
      dsimp only
      split_ifs with hi
      · exact .same
      · cases hs : u.status with
        | alive =>
          simp only [applyStatus, hs]
          split_ifs with h
          · exact .alive hself hl hi hs h
          · exact .same
        | suspect =>
          simp only [applyStatus, hs]
          split_ifs with h
          · exact .suspect hself hl hi hs h
          · exact .same
        | dead =>
          simp only [applyStatus, hs]
          split_ifs with h
          · exact .dead hself hl hi hs h
          · exact .same
        | left =>
          simp only [applyStatus, hs]
          exact .left hself hl hi hs
        | unknown n =>
          simp only [applyStatus, hs]
          exact .same

/-- **What the first section of `applyUpdate` can do**, with the conditions under which it
    does. -/
inductive Begins (m : Membership) (u : MembershipUpdate) : Membership × Option Todo → Prop
  | same : Begins m u (m, none)
  | refute : u.nodeID = m.selfID → u.status = .suspect ∨ u.status = .dead →
      Begins m u (m.refute u, none)
  | join : u.nodeID ≠ m.selfID → m.registry.lookup u.nodeID = none → u.status = .alive →
      Begins m u (m.setInfo u.nodeID
        { NodeInfo.new u.nodeID u.addrs with incarnation := u.incarnation }, some .join)
  | alive {info : NodeInfo} : u.nodeID ≠ m.selfID → m.registry.lookup u.nodeID = some info →
      ¬ u.incarnation < info.incarnation → u.status = .alive → info.status ≠ .alive →
      Begins m u (m.setInfo u.nodeID { info with status := .alive }, some .stamp)
  | suspect {info : NodeInfo} : u.nodeID ≠ m.selfID → m.registry.lookup u.nodeID = some info →
      ¬ u.incarnation < info.incarnation → u.status = .suspect → info.status = .alive →
      Begins m u (m, some .suspect)
  | dead {info : NodeInfo} : u.nodeID ≠ m.selfID → m.registry.lookup u.nodeID = some info →
      ¬ u.incarnation < info.incarnation → u.status = .dead → info.status ≠ .dead →
      Begins m u (m, some .bury)
  | left {info : NodeInfo} : u.nodeID ≠ m.selfID → m.registry.lookup u.nodeID = some info →
      ¬ u.incarnation < info.incarnation → u.status = .left →
      Begins m u (m.setInfo u.nodeID { info with status := .left }, some (.emit .left))

theorem beginUpdate_begins (m : Membership) (u : MembershipUpdate) :
    Begins m u (m.beginUpdate u) := by
  unfold beginUpdate
  by_cases hself : u.nodeID = m.selfID
  · rw [if_pos hself]
    split_ifs with hs
    · exact .refute hself hs
    · exact .same
  · rw [if_neg hself]
    cases hl : m.registry.lookup u.nodeID with
    | none =>
      dsimp only
      split_ifs with hs
      · exact .join hself hl hs
      · exact .same
    | some info =>
      dsimp only
      by_cases hi : u.incarnation < info.incarnation
      · rw [if_pos hi]
        exact .same
      · rw [if_neg hi]
        cases hs : u.status with
        | alive =>
          dsimp only
          split_ifs with h
          · exact .alive hself hl hi hs h
          · exact .same
        | suspect =>
          dsimp only
          split_ifs with h
          · exact .suspect hself hl hi hs h
          · exact .same
        | dead =>
          dsimp only
          split_ifs with h
          · exact .dead hself hl hi hs h
          · exact .same
        | left => exact .left hself hl hi hs
        | unknown n => exact .same

/-- **What a later section can do**, with the record that it finds. -/
inductive Resumes (m : Membership) (u : MembershipUpdate) :
    Todo → Membership × Option Todo → Prop
  | gone (todo : Todo) : m.registry.lookup u.nodeID = none → Resumes m u todo (m, none)
  | join {info : NodeInfo} : m.registry.lookup u.nodeID = some info →
      Resumes m u .join (m.emitEvent .join u.nodeID, some .queue)
  | queue {info : NodeInfo} : m.registry.lookup u.nodeID = some info →
      Resumes m u .queue (m.queueUpdate u, none)
  | stamp {info : NodeInfo} : m.registry.lookup u.nodeID = some info →
      Resumes m u .stamp
        (m.setInfo u.nodeID { info with incarnation := u.incarnation }, some .cancel)
  | cancel {info : NodeInfo} : m.registry.lookup u.nodeID = some info →
      Resumes m u .cancel (m.cancelTimer u.nodeID, some (.emit .alive))
  | suspect {info : NodeInfo} : m.registry.lookup u.nodeID = some info →
      Resumes m u .suspect (m.markSuspectLocked u.nodeID info, none)
  | bury {info : NodeInfo} : m.registry.lookup u.nodeID = some info →
      Resumes m u .bury ((m.setInfo u.nodeID { info with status := .dead }).cancelTimer u.nodeID,
        some (.emit .dead))
  | emit {info : NodeInfo} (type : MembershipEventType) :
      m.registry.lookup u.nodeID = some info →
      Resumes m u (.emit type) (m.emitEvent type u.nodeID, none)

theorem resumeUpdate_resumes (m : Membership) (u : MembershipUpdate) (todo : Todo) :
    Resumes m u todo (m.resumeUpdate u todo) := by
  unfold resumeUpdate
  cases hl : m.registry.lookup u.nodeID with
  | none => exact .gone todo hl
  | some info =>
    cases todo with
    | join => exact .join hl
    | queue => exact .queue hl
    | stamp => exact .stamp hl
    | cancel => exact .cancel hl
    | suspect => exact .suspect hl
    | bury => exact .bury hl
    | emit type => exact .emit type hl

/-- An update changes no record but the one of the node that it is about. -/
theorem view_beginUpdate_of_ne (m : Membership) {x : NodeID} {u : MembershipUpdate}
    (hx : x ≠ u.nodeID) : (m.beginUpdate u).1.view x = m.view x := by
  have h := beginUpdate_begins m u
  generalize m.beginUpdate u = r at h
  cases h with
  | join => rw [view_setInfo, if_neg hx]
  | alive => rw [view_setInfo, if_neg hx]
  | left => rw [view_setInfo, if_neg hx]
  | _ => rfl

theorem view_beginUpdate (m : Membership) (x : NodeID) (u : MembershipUpdate) :
    (m.beginUpdate u).1.view x =
      if x = u.nodeID ∧ x ≠ m.selfID then (m.view x).begin u.status u.incarnation
      else m.view x := by
  by_cases hx : x = u.nodeID
  · subst hx
    obtain ⟨nodeID, addrs, st, i⟩ := u
    unfold beginUpdate
    dsimp only
    by_cases hself : nodeID = m.selfID
    · have hcond : ¬ (nodeID = nodeID ∧ nodeID ≠ m.selfID) := fun h => h.2 hself
      rw [if_neg hcond, if_pos hself]
      split_ifs <;> rfl
    · have hcond : nodeID = nodeID ∧ nodeID ≠ m.selfID := ⟨rfl, hself⟩
      rw [if_pos hcond, if_neg hself]
      cases hl : m.registry.lookup nodeID with
      | none =>
        rw [m.view_eq_none _ hl]
        by_cases hs : st = .alive
        · simp [Record.begin, hs, view_setInfo, NodeInfo.new]
        · simp [Record.begin, hs, m.view_eq_none _ hl]
      | some info =>
        rw [m.view_eq_some _ hl]
        by_cases hi : i < info.incarnation
        · simp [Record.begin, hi, m.view_eq_some _ hl]
        · cases st with
          | alive =>
            by_cases hs : info.status = .alive
            · simp [Record.begin, hi, hs, m.view_eq_some _ hl]
            · simp [Record.begin, hi, hs, view_setInfo]
          | suspect =>
            by_cases hs : info.status = .alive <;>
              simp [Record.begin, hi, hs, m.view_eq_some _ hl]
          | dead =>
            by_cases hs : info.status = .dead <;>
              simp [Record.begin, hi, hs, m.view_eq_some _ hl]
          | left => simp [Record.begin, hi, view_setInfo]
          | unknown n => simp [Record.begin, hi, m.view_eq_some _ hl]
  · rw [view_beginUpdate_of_ne m hx, if_neg fun h => hx h.1]

theorem view_resumeUpdate (m : Membership) (x : NodeID) (u : MembershipUpdate) (todo : Todo) :
    (m.resumeUpdate u todo).1.view x =
      if x = u.nodeID then (m.view x).resume todo u.incarnation else m.view x := by
  have h := resumeUpdate_resumes m u todo
  generalize m.resumeUpdate u todo = r at h
  by_cases hx : x = u.nodeID
  · rw [if_pos hx, hx]
    cases h with
    | gone todo hl => cases todo <;> simp [Record.resume, m.view_eq_none _ hl]
    | stamp hl => simp [Record.resume, m.view_eq_some _ hl, view_setInfo]
    | suspect hl => simp [Record.resume, m.view_eq_some _ hl, markSuspectLocked, view_setInfo]
    | bury hl => simp [Record.resume, m.view_eq_some _ hl, view_setInfo]
    | _ => rfl
  · rw [if_neg hx]
    cases h with
    | stamp hl => simp [view_setInfo, hx]
    | suspect hl => simp [markSuspectLocked, view_setInfo, hx]
    | bury hl => simp [view_setInfo, hx]
    | _ => rfl

/-- A call of `applyUpdate` goes on with its next section, if there is one. -/
def nextSection (u : MembershipUpdate) : Membership × Option Todo → Membership × Option Todo
  | (m, none) => (m, none)
  | (m, some todo) => m.resumeUpdate u todo

/-- **The sections of a call that is not interrupted make up `applyUpdate`.** -/
theorem resume_applyUpdate (m : Membership) (u : MembershipUpdate) :
    (nextSection u)^[3] (m.beginUpdate u) = (m.applyUpdate u, none) := by
  unfold beginUpdate applyUpdate
  by_cases hself : u.nodeID = m.selfID
  · rw [if_pos hself, if_pos hself]
    split_ifs <;> rfl
  · rw [if_neg hself, if_neg hself]
    cases hl : m.registry.lookup u.nodeID with
    | none =>
      dsimp only
      split_ifs
      · simp [nextSection, resumeUpdate, setInfo, emitEvent, queueUpdate]
      · rfl
    | some info =>
      dsimp only
      by_cases hi : u.incarnation < info.incarnation
      · rw [if_pos hi, if_pos hi]
        rfl
      · rw [if_neg hi, if_neg hi]
        cases hs : u.status with
        | alive =>
          simp only [applyStatus, hs]
          split_ifs
          · simp [nextSection, resumeUpdate, setInfo, emitEvent, cancelTimer, stopTimer]
          · rfl
        | suspect =>
          simp only [applyStatus, hs]
          split_ifs
          · simp [nextSection, resumeUpdate, hl]
          · rfl
        | dead =>
          simp only [applyStatus, hs]
          split_ifs
          · simp [nextSection, resumeUpdate, hl, setInfo, emitEvent, cancelTimer, stopTimer]
          · rfl
        | left =>
          simp only [applyStatus, hs]
          simp [nextSection, resumeUpdate, setInfo, emitEvent]
        | unknown n => simp only [applyStatus, hs]; rfl

section
variable (m : Membership) (y : NodeID)

theorem markSuspect_cases :
    m.markSuspect y = m ∨ ∃ info, m.registry.lookup y = some info ∧
      (info.status ≠ .dead ∧ info.status ≠ .left ∧ info.status ≠ .suspect) ∧
      m.markSuspect y = ((((m.setInfo y { info with status := .suspect }).queueUpdate
        (.report y .suspect info.incarnation)).emitEvent .suspect y).stopTimer y).startTimer y := by
  unfold markSuspect
  cases hl : m.registry.lookup y with
  | none => exact Or.inl rfl
  | some info =>
    dsimp only
    split_ifs with h1 h2
    · exact Or.inl rfl
    · exact Or.inl rfl
    · rw [not_or] at h1
      exact Or.inr ⟨info, rfl, ⟨h1.1, h1.2, h2⟩, rfl⟩

theorem canSuspect_iff :
    m.canSuspect y = true ↔ ∃ info, m.registry.lookup y = some info ∧
      info.status ≠ .dead ∧ info.status ≠ .left ∧ info.status ≠ .suspect := by
  unfold canSuspect
  cases m.registry.lookup y <;> simp

theorem setSuspect_cases :
    m.setSuspect y = m ∧ m.registry.lookup y = none ∨ ∃ info, m.registry.lookup y = some info ∧
      m.setSuspect y = ((((m.setInfo y { info with status := .suspect }).queueUpdate
        (.report y .suspect info.incarnation)).emitEvent .suspect y).stopTimer y).startTimer y := by
  unfold setSuspect
  cases hl : m.registry.lookup y with
  | none => exact Or.inl ⟨rfl, rfl⟩
  | some info => exact Or.inr ⟨info, rfl, rfl⟩

/-- **The sections of `markSuspect` make up the method.** -/
theorem setSuspect_markSuspect :
    m.markSuspect y = if m.canSuspect y then m.setSuspect y else m := by
  unfold markSuspect canSuspect setSuspect
  cases m.registry.lookup y with
  | none => rfl
  | some info => cases hs : info.status <;> simp [hs]

theorem view_setSuspect (x : NodeID) :
    (m.setSuspect y).view x =
      if x = y then (m.view x).map fun r => (.suspect, r.2) else m.view x := by
  rcases m.setSuspect_cases y with ⟨h, hl⟩ | ⟨info, hl, h⟩
  · rw [h]
    split_ifs with hx
    · rw [hx, m.view_eq_none _ hl]; rfl
    · rfl
  · rw [h]
    split_ifs with hx
    · subst hx
      simp [view_setInfo, m.view_eq_some _ hl]
    · simp [view_setInfo, hx]

theorem markDead_cases :
    (m.markDead y = m ∧ ∀ info, m.registry.lookup y = some info → info.status = .dead) ∨
      ∃ info, m.registry.lookup y = some info ∧ info.status ≠ .dead ∧
        m.markDead y = (((m.setInfo y { info with status := .dead }).cancelTimer y).queueUpdate
          (.report y .dead info.incarnation)).emitEvent .dead y := by
  unfold markDead
  cases hl : m.registry.lookup y with
  | none => exact Or.inl ⟨rfl, fun _ h => nomatch h⟩
  | some info =>
    dsimp only
    split_ifs with h
    · exact Or.inl ⟨rfl, fun _ hi => Option.some.inj hi ▸ h⟩
    · exact Or.inr ⟨info, rfl, h, rfl⟩

@[simp] theorem applyUpdate_selfID (u : MembershipUpdate) :
    (m.applyUpdate u).selfID = m.selfID := by
  have h := applyUpdate_outcome m u
  generalize m.applyUpdate u = m' at h ⊢
  cases h <;> rfl

@[simp] theorem markSuspect_selfID : (m.markSuspect y).selfID = m.selfID := by
  rcases m.markSuspect_cases y with h | ⟨info, -, -, h⟩
  · rw [h]
  · rw [h]; rfl

@[simp] theorem setSuspect_selfID : (m.setSuspect y).selfID = m.selfID := by
  rcases m.setSuspect_cases y with ⟨h, -⟩ | ⟨info, -, h⟩
  · rw [h]
  · rw [h]; rfl

@[simp] theorem markDead_selfID : (m.markDead y).selfID = m.selfID := by
  rcases m.markDead_cases y with ⟨h, -⟩ | ⟨info, -, -, h⟩
  · rw [h]
  · rw [h]; rfl

@[simp] theorem beginUpdate_selfID (u : MembershipUpdate) :
    (m.beginUpdate u).1.selfID = m.selfID := by
  have h := beginUpdate_begins m u
  generalize m.beginUpdate u = r at h ⊢
  cases h <;> rfl

@[simp] theorem resumeUpdate_selfID (u : MembershipUpdate) (todo : Todo) :
    (m.resumeUpdate u todo).1.selfID = m.selfID := by
  have h := resumeUpdate_resumes m u todo
  generalize m.resumeUpdate u todo = r at h ⊢
  cases h <;> rfl

@[simp] theorem fire_selfID (t : ℕ) : (m.fire t).selfID = m.selfID := by
  unfold fire
  split <;> rfl

@[simp] theorem callback_selfID : (m.callback y).selfID = m.selfID := by
  unfold callback
  split_ifs
  · rw [markDead_selfID]
  · rfl

end

end Membership

end DistCache
