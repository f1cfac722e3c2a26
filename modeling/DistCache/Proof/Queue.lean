/-
  The dissemination queue.

  A drain returns the first ten updates of the queue, counts them as sent, and drops those
  sent three times (`drainUpdates_eq`); queueing replaces the entry of the node in place
  (`coalesce_cases`).  So the queue owes every entry as many drains as it is short of three
  (`owed`), and each drain pays from that.  Which update an entry carries is compared with
  the updates queued since the last entry of the node was discarded (`Tracked`).
-/
import DistCache.Membership

namespace DistCache

open Lib

namespace Membership

/-! ## Queueing -/

/-- The update is appended, or takes the place of the entry of its node unless that is newer. -/
theorem coalesce_cases (u : MembershipUpdate) : ∀ l : List QueuedUpdate,
    (∀ q ∈ l, q.update.nodeID ≠ u.nodeID) ∧ coalesce u l = l ++ [⟨u, 0⟩] ∨
      ∃ a q b, l = a ++ q :: b ∧ (∀ q' ∈ a, q'.update.nodeID ≠ u.nodeID) ∧
        q.update.nodeID = u.nodeID ∧
        coalesce u l = a ++ (if q.update.incarnation ≤ u.incarnation then ⟨u, 0⟩ else q) :: b
  | [] => Or.inl ⟨fun q hq => absurd hq List.not_mem_nil, rfl⟩
  | q :: l => by
    by_cases hid : q.update.nodeID = u.nodeID
    · right
      refine ⟨[], q, l, rfl, fun q' hq' => absurd hq' List.not_mem_nil, hid, ?_⟩
      rw [coalesce, if_pos hid, List.nil_append]
      split_ifs <;> rfl
    · have hcons : coalesce u (q :: l) = q :: coalesce u l := by rw [coalesce, if_neg hid]
      have hne : ∀ a : List QueuedUpdate, (∀ q' ∈ a, q'.update.nodeID ≠ u.nodeID) →
          ∀ q' ∈ q :: a, q'.update.nodeID ≠ u.nodeID := by
        intro a ha q' hq'
        rcases List.mem_cons.1 hq' with rfl | hq'
        · exact hid
        · exact ha q' hq'
      rcases coalesce_cases u l with ⟨hl, heq⟩ | ⟨a, q', b, rfl, ha, hq', heq⟩
      · exact Or.inl ⟨hne l hl, by rw [hcons, heq, List.cons_append]⟩
      · exact Or.inr ⟨q :: a, q', b, rfl, hne a ha, hq', by rw [hcons, heq, List.cons_append]⟩

theorem mem_coalesce {u : MembershipUpdate} {l : List QueuedUpdate} {q : QueuedUpdate}
    (h : q ∈ coalesce u l) : q.update = u ∨ q ∈ l := by
  rcases coalesce_cases u l with ⟨-, heq⟩ | ⟨a, q', b, rfl, -, -, heq⟩
  · rw [heq] at h
    rcases List.mem_append.1 h with h | h
    · exact Or.inr h
    · rw [List.mem_singleton.1 h]
      exact Or.inl rfl
  · rw [heq] at h
    rcases List.mem_append.1 h with h | h
    · exact Or.inr (List.mem_append_left _ h)
    · rcases List.mem_cons.1 h with rfl | h
      · split_ifs
        · exact Or.inl rfl
        · exact Or.inr (List.mem_append_right a List.mem_cons_self)
      · exact Or.inr (List.mem_append_right a (List.mem_cons_of_mem q' h))

/-- An update that is not older than those queued about its node is queued. -/
theorem exists_mem_coalesce {u : MembershipUpdate} {l : List QueuedUpdate}
    (h : ∀ q ∈ l, q.update.nodeID = u.nodeID → q.update.incarnation ≤ u.incarnation) :
    ⟨u, 0⟩ ∈ coalesce u l := by
  rcases coalesce_cases u l with ⟨-, heq⟩ | ⟨a, q, b, rfl, -, hq, heq⟩
  · rw [heq]
    exact List.mem_append_right l List.mem_cons_self
  · have hle := h q (List.mem_append_right a List.mem_cons_self) hq
    rw [heq, if_pos hle]
    exact List.mem_append_right a List.mem_cons_self

/-- The node IDs of the entries of a queue. -/
def ids (l : List QueuedUpdate) : List NodeID := l.map fun q => q.update.nodeID

/-- Queueing leaves one entry `r` for the node of the update: the update, or a newer entry. -/
theorem coalesce_spec (u : MembershipUpdate) {l : List QueuedUpdate} (hnd : (ids l).Nodup) :
    (ids (coalesce u l)).Nodup ∧ (∀ x, x ∈ ids (coalesce u l) ↔ x ∈ ids l ∨ x = u.nodeID) ∧
      ∃ r, r.update.nodeID = u.nodeID ∧
        (∀ q ∈ coalesce u l, q = r ∨ q ∈ l ∧ q.update.nodeID ≠ u.nodeID) ∧
        (r = ⟨u, 0⟩ ∧
            (∀ q ∈ l, q.update.nodeID = u.nodeID → q.update.incarnation ≤ u.incarnation) ∨
          r ∈ l ∧ u.incarnation < r.update.incarnation) := by
  rcases coalesce_cases u l with ⟨hnone, heq⟩ | ⟨a, q, b, rfl, ha, hq, heq⟩
  · have hids : ids (coalesce u l) = ids l ++ [u.nodeID] := by
      rw [heq, ids, List.map_append]
      rfl
    have habsent : u.nodeID ∉ ids l := by
      intro hmem
      obtain ⟨q, hq, hid⟩ := List.mem_map.1 hmem
      exact hnone q hq hid
    refine ⟨?_, fun x => by rw [hids, List.mem_append, List.mem_singleton], ⟨u, 0⟩, rfl,
      fun q hq => ?_, Or.inl ⟨rfl, fun q hq hid => absurd hid (hnone q hq)⟩⟩
    · rw [hids]
      exact (List.nodup_append_comm.1 (List.nodup_cons.2 ⟨habsent, hnd⟩))
    · rw [heq] at hq
      rcases List.mem_append.1 hq with hq | hq
      · exact Or.inr ⟨hq, hnone q hq⟩
      · exact Or.inl (List.mem_singleton.1 hq)
  · have hb : ∀ q' ∈ b, q'.update.nodeID ≠ u.nodeID := by
      intro q' hq' hid
      rw [ids, List.map_append, List.map_cons] at hnd
      have hnot := (List.nodup_cons.1 (List.nodup_append.1 hnd).2.1).1
      rw [hq, ← hid] at hnot
      exact hnot (List.mem_map_of_mem hq')
    generalize hr : (if q.update.incarnation ≤ u.incarnation then ⟨u, 0⟩ else q) = r at heq
    have hrid : r.update.nodeID = u.nodeID := by
      rw [← hr]
      split_ifs
      · rfl
      · exact hq
    have hids : ids (coalesce u (a ++ q :: b)) = ids (a ++ q :: b) := by
      rw [heq, ids, ids, List.map_append, List.map_append, List.map_cons, List.map_cons, hrid, hq]
    have hothers : ∀ q' ∈ a ++ q :: b, q' = q ∨ q'.update.nodeID ≠ u.nodeID := by
      intro q' hq'
      rcases List.mem_append.1 hq' with hq' | hq'
      · exact Or.inr (ha q' hq')
      · exact (List.mem_cons.1 hq').imp_right (hb q')
    refine ⟨hids ▸ hnd, fun x => ?_, r, hrid, fun q' hq' => ?_, ?_⟩
    · rw [hids, or_iff_left_of_imp]
      rintro rfl
      exact hq ▸ List.mem_map_of_mem (List.mem_append_right a List.mem_cons_self)
    · rw [heq] at hq'
      rcases List.mem_append.1 hq' with hq' | hq'
      · exact Or.inr ⟨List.mem_append_left _ hq', ha q' hq'⟩
      · refine (List.mem_cons.1 hq').imp_right fun hq' => ⟨?_, hb q' hq'⟩
        exact List.mem_append_right a (List.mem_cons_of_mem q hq')
    · by_cases hle : q.update.incarnation ≤ u.incarnation
      · rw [if_pos hle] at hr
        refine Or.inl ⟨hr.symm, fun q' hq' hid => ?_⟩
        rw [(hothers q' hq').resolve_right fun hne => hne hid]
        exact hle
      · rw [if_neg hle] at hr
        rw [← hr]
        exact Or.inr ⟨List.mem_append_right a List.mem_cons_self, UInt64.not_le.1 hle⟩

/-! ## Draining -/

/-- The entry, sent once more. -/
def bump (q : QueuedUpdate) : QueuedUpdate := { q with sentCount := q.sentCount + 1 }

/-- The entries of a queue after the first `n` were sent, before any is dropped. -/
def sendFirst (n : ℕ) (l : List QueuedUpdate) : List QueuedUpdate :=
  (l.take n).map bump ++ l.drop n

theorem drainLoop_eq : ∀ (l : List QueuedUpdate) (updates : List MembershipUpdate)
    (active : List QueuedUpdate),
    drainLoop l updates active =
      (updates ++ (l.map QueuedUpdate.update).take (maxPiggybackUpdates - updates.length),
        active ++ (sendFirst (maxPiggybackUpdates - updates.length) l).filter fun q =>
          q.sentCount < 3)
  | [], updates, active => by simp [drainLoop, sendFirst]
  | q :: l, updates, active => by
    have hkeep : ∀ (q' : QueuedUpdate) (rest : List QueuedUpdate),
        (if q'.sentCount < 3 then active ++ [q'] else active) ++
            rest.filter (fun q => q.sentCount < 3) =
          active ++ (q' :: rest).filter fun q => q.sentCount < 3 := by
      intro q' rest
      by_cases hq : q'.sentCount < 3
      · rw [if_pos hq, List.filter_cons_of_pos (by simpa using hq), List.append_assoc,
          List.singleton_append]
      · rw [if_neg hq, List.filter_cons_of_neg (by simpa using hq)]
    by_cases hlen : updates.length < maxPiggybackUpdates
    · obtain ⟨n, hn⟩ : ∃ n, maxPiggybackUpdates - updates.length = n + 1 :=
        ⟨maxPiggybackUpdates - updates.length - 1, by omega⟩
      have hn' : maxPiggybackUpdates - (updates ++ [q.update]).length = n := by
        rw [List.length_append, List.length_singleton]
        omega
      simp only [drainLoop, if_pos hlen]
      rw [drainLoop_eq l, hn, hn']
      refine Prod.ext ?_ (hkeep (bump q) (sendFirst n l))
      rw [List.map_cons, List.take_succ_cons, List.append_assoc, List.singleton_append]
    · have hn : maxPiggybackUpdates - updates.length = 0 := by omega
      simp only [drainLoop, if_neg hlen]
      rw [drainLoop_eq l, hn, hkeep]
      rfl

theorem drainUpdates_eq (m : Membership) :
    m.drainUpdates = ((m.updateQueue.map QueuedUpdate.update).take maxPiggybackUpdates,
      { m with
        updateQueue := (sendFirst maxPiggybackUpdates m.updateQueue).filter fun q =>
          q.sentCount < 3 }) := by
  simp only [drainUpdates, drainLoop_eq, List.length_nil, Nat.sub_zero, List.nil_append]

theorem map_sendFirst {β : Type} (f : MembershipUpdate → β) (n : ℕ) (l : List QueuedUpdate) :
    (sendFirst n l).map (fun q => f q.update) = l.map fun q => f q.update := by
  conv_rhs => rw [← List.take_append_drop n l]
  rw [sendFirst, List.map_append, List.map_append, List.map_map]
  rfl

/-- What is in the queue after a drain carries what it carried before. -/
theorem mem_drained {m : Membership} {q : QueuedUpdate} (hq : q ∈ m.drainUpdates.2.updateQueue) :
    q.sentCount < 3 ∧ ∃ q' ∈ m.updateQueue, q'.update = q.update := by
  rw [drainUpdates_eq] at hq
  obtain ⟨hq, hsent⟩ := List.mem_filter.1 hq
  refine ⟨by simpa using hsent, ?_⟩
  have hmem : q.update ∈ (sendFirst maxPiggybackUpdates m.updateQueue).map fun q => q.update :=
    List.mem_map_of_mem hq
  rw [map_sendFirst fun u => u] at hmem
  exact List.mem_map.1 hmem

/-- A drain returns and keeps updates of the queue only. -/
theorem drainUpdates_queued {P : MembershipUpdate → Prop} {m : Membership}
    (h : ∀ q ∈ m.updateQueue, P q.update) :
    (∀ u ∈ m.drainUpdates.1, P u) ∧ ∀ q ∈ m.drainUpdates.2.updateQueue, P q.update := by
  constructor
  · intro u hu
    rw [drainUpdates_eq] at hu
    obtain ⟨q, hq, rfl⟩ := List.mem_map.1 (List.mem_of_mem_take hu)
    exact h q hq
  · intro q hq
    obtain ⟨-, q', hq', he⟩ := mem_drained hq
    rw [← he]
    exact h q' hq'

/-! ## What is owed -/

/-- The drains that the queue owes to its entries. -/
def owed (l : List QueuedUpdate) : List MembershipUpdate :=
  l.flatMap fun q => List.replicate (3 - q.sentCount) q.update

theorem owed_filter (l : List QueuedUpdate) : owed (l.filter fun q => q.sentCount < 3) = owed l := by
  induction l with
  | nil => rfl
  | cons q l ih =>
    by_cases hq : q.sentCount < 3
    · rw [List.filter_cons_of_pos (by simpa using hq), owed, owed, List.flatMap_cons,
        List.flatMap_cons]
      exact congrArg _ ih
    · have hzero : 3 - q.sentCount = 0 := by omega
      rw [List.filter_cons_of_neg (by simpa using hq), ih, owed, owed, List.flatMap_cons, hzero]
      rfl

/-- An entry that is sent is owed one drain less. -/
theorem owed_bump {l : List QueuedUpdate} (h : ∀ q ∈ l, q.sentCount < 3) :
    (l.map QueuedUpdate.update ++ owed (l.map bump)).Perm (owed l) := by
  induction l with
  | nil => exact .refl []
  | cons q l ih =>
    obtain ⟨n, hn⟩ : ∃ n, 3 - q.sentCount = n + 1 := by
      have := h q List.mem_cons_self
      exact ⟨3 - q.sentCount - 1, by omega⟩
    have hn' : 3 - (q.sentCount + 1) = n := by omega
    have hih := ih fun q' hq' => h q' (List.mem_cons_of_mem q hq')
    simp only [owed, List.map_cons, List.flatMap_cons, bump, hn, hn', List.replicate_succ,
      List.cons_append] at hih ⊢
    refine .cons q.update ?_
    exact (List.perm_append_comm_assoc _ _ _).trans (hih.append_left _)

/-- **A drain pays from what is owed**, and pays something unless nothing is in the queue. -/
theorem owed_drain {m : Membership} (h : ∀ q ∈ m.updateQueue, q.sentCount < 3) :
    (m.drainUpdates.1 ++ owed m.drainUpdates.2.updateQueue).Perm (owed m.updateQueue) := by
  rw [drainUpdates_eq, owed_filter, ← List.map_take]
  have hsplit : ∀ n, owed m.updateQueue =
      owed (m.updateQueue.take n) ++ owed (m.updateQueue.drop n) := by
    intro n
    rw [owed, owed, owed, ← List.flatMap_append, List.take_append_drop]
  have hfirst := owed_bump fun q hq => h q (List.mem_of_mem_take (i := maxPiggybackUpdates) hq)
  rw [hsplit maxPiggybackUpdates, sendFirst, owed, List.flatMap_append, ← List.append_assoc]
  exact hfirst.append_right _

theorem owed_eq_nil {l : List QueuedUpdate} (h : ∀ q ∈ l, q.sentCount < 3) :
    owed l = [] ↔ l = [] := by
  constructor
  · intro hnil
    rcases l with _ | ⟨q, l⟩
    · rfl
    · have hq := h q List.mem_cons_self
      have hzero : 3 - q.sentCount = 0 := by
        have hlen := congrArg List.length hnil
        simp only [owed, List.flatMap_cons, List.length_append, List.length_replicate,
          List.length_nil] at hlen
        omega
      omega
  · rintro rfl
    rfl

/-! ## Runs -/

/-- A call of `queueUpdate` (or `queueUpdateLocked`), or of `drainUpdates`. -/
inductive QueueOp where
  | queue (u : MembershipUpdate)
  | drain

def queueStep (m : Membership) : QueueOp → Membership
  | .queue u => m.queueUpdate u
  | .drain => m.drainUpdates.2

/-- The updates that a call returns. -/
def queueOut (m : Membership) : QueueOp → List MembershipUpdate
  | .queue _ => []
  | .drain => m.drainUpdates.1

/-- A queue, and for every node the updates queued about it since its entry was last
    discarded. -/
structure Tracked where
  m : Membership
  since : NodeID → List MembershipUpdate

def Tracked.step (t : Tracked) : QueueOp → Tracked
  | .queue u =>
    ⟨t.m.queueUpdate u, Function.update t.since u.nodeID (t.since u.nodeID ++ [u])⟩
  | .drain =>
    ⟨t.m.drainUpdates.2, fun x =>
      if x ∈ ids t.m.updateQueue ∧ x ∉ ids t.m.drainUpdates.2.updateQueue then [] else t.since x⟩

/-- `u` is the latest of the updates with the highest incarnation. -/
def Latest (us : List MembershipUpdate) (u : MembershipUpdate) : Prop :=
  ∃ before after, us = before ++ u :: after ∧ (∀ v ∈ before, v.incarnation ≤ u.incarnation) ∧
    ∀ v ∈ after, v.incarnation < u.incarnation

theorem Latest.le {us : List MembershipUpdate} {u v : MembershipUpdate} (h : Latest us u)
    (hv : v ∈ us) : v.incarnation ≤ u.incarnation := by
  obtain ⟨before, after, rfl, hb, ha⟩ := h
  rcases List.mem_append.1 hv with hv | hv
  · exact hb v hv
  · rcases List.mem_cons.1 hv with rfl | hv
    · exact UInt64.le_refl _
    · exact UInt64.le_of_lt (ha v hv)

theorem Latest.keep {us : List MembershipUpdate} {u v : MembershipUpdate} (h : Latest us u)
    (hv : v.incarnation < u.incarnation) : Latest (us ++ [v]) u := by
  obtain ⟨before, after, rfl, hb, ha⟩ := h
  refine ⟨before, after ++ [v], by rw [List.append_assoc, List.cons_append], hb, fun w hw => ?_⟩
  rcases List.mem_append.1 hw with hw | hw
  · exact ha w hw
  · rw [List.mem_singleton.1 hw]
    exact hv

/-- One entry per node, sent less than three times, which carries the latest update. -/
structure Tracked.Inv (t : Tracked) : Prop where
  nodup : (ids t.m.updateQueue).Nodup
  sent : ∀ q ∈ t.m.updateQueue, q.sentCount < 3
  latest : ∀ q ∈ t.m.updateQueue, Latest (t.since q.update.nodeID) q.update
  absent : ∀ x, x ∉ ids t.m.updateQueue → t.since x = []

theorem Tracked.Inv.drain {t : Tracked} (h : t.Inv) : (t.step .drain).Inv := by
  have hids : (ids t.m.drainUpdates.2.updateQueue).Sublist (ids t.m.updateQueue) := by
    have hsub : (ids t.m.drainUpdates.2.updateQueue).Sublist
        (ids (sendFirst maxPiggybackUpdates t.m.updateQueue)) := by
      rw [drainUpdates_eq]
      exact List.filter_sublist.map _
    rwa [ids, ids, map_sendFirst fun u => u.nodeID] at hsub
  refine ⟨h.nodup.sublist hids, fun q hq => (mem_drained hq).1, fun q hq => ?_, fun x hx => ?_⟩
  · -- an entry that is left has not been discarded
    obtain ⟨-, q', hq', he⟩ := mem_drained hq
    have hleft : q.update.nodeID ∈ ids t.m.drainUpdates.2.updateQueue := List.mem_map_of_mem hq
    have hlatest := h.latest q' hq'
    rw [he] at hlatest
    show Latest (if _ then [] else t.since q.update.nodeID) q.update
    rw [if_neg fun hc => hc.2 hleft]
    exact hlatest
  · show (if _ then [] else t.since x) = []
    by_cases hbefore : x ∈ ids t.m.updateQueue
    · rw [if_pos ⟨hbefore, hx⟩]
    · rw [if_neg fun hc => hbefore hc.1]
      exact h.absent x hbefore

theorem Tracked.Inv.queue {t : Tracked} (h : t.Inv) (u : MembershipUpdate) :
    (t.step (.queue u)).Inv := by
  have hsince : ∀ x ≠ u.nodeID, (t.step (.queue u)).since x = t.since x := fun x hx =>
    Function.update_of_ne hx _ _
  have hself : (t.step (.queue u)).since u.nodeID = t.since u.nodeID ++ [u] :=
    Function.update_self ..
  obtain ⟨hnodup, hids, r, hrid, hmem, hr⟩ := coalesce_spec u h.nodup
  refine ⟨hnodup, fun q hq => ?_, fun q hq => ?_, fun x hx => ?_⟩
  · rcases hmem q hq with rfl | ⟨hq, -⟩
    · rcases hr with ⟨rfl, -⟩ | ⟨hq, -⟩
      · exact Nat.zero_lt_succ 2
      · exact h.sent q hq
    · exact h.sent q hq
  · rcases hmem q hq with rfl | ⟨hq, hne⟩
    · rw [hrid, hself]
      rcases hr with ⟨rfl, hle⟩ | ⟨hq, hlt⟩
      · -- the update is not older than what was queued before
        refine ⟨t.since u.nodeID, [], rfl, fun v hv => ?_, fun v hv => absurd hv List.not_mem_nil⟩
        by_cases hx : u.nodeID ∈ ids t.m.updateQueue
        · obtain ⟨q, hq, hid⟩ := List.mem_map.1 hx
          exact UInt64.le_trans ((hid ▸ h.latest q hq).le hv) (hle q hq hid)
        · rw [h.absent _ hx] at hv
          exact absurd hv List.not_mem_nil
      · exact (hrid ▸ h.latest q hq).keep hlt
    · rw [hsince _ hne]
      exact h.latest q hq
  · have hx : ¬ (x ∈ ids t.m.updateQueue ∨ x = u.nodeID) := fun hc => hx ((hids x).2 hc)
    rw [hsince x fun hc => hx (Or.inr hc)]
    exact h.absent x fun hc => hx (Or.inl hc)

theorem Tracked.Inv.run (m : Membership) (ops : List QueueOp) :
    (run Tracked.step ⟨{ m with updateQueue := [] }, fun _ => []⟩ ops).Inv := by
  refine run_inv (I := Tracked.Inv) (fun t op h => ?_) ?_ ops
  · cases op with
    | queue u => exact h.queue u
    | drain => exact h.drain
  · exact ⟨List.nodup_nil, fun q hq => absurd hq List.not_mem_nil,
      fun q hq => absurd hq List.not_mem_nil, fun _ _ => rfl⟩

/-- **The gossip queue loses and repeats nothing.**  After any calls of `queueUpdate` and
    `drainUpdates` from the empty queue, there is at most one entry per node, sent less than three
    times, which carries the latest of the updates with the highest incarnation queued about its
    node since its entry was last discarded; a node about which something was queued since then has
    an entry; a drain returns at most ten updates; and from some number of drains on, without
    further queueing, every entry has been returned `3 - sentCount` times, nothing else has, and the
    queue is empty. -/
theorem gossip_queue (m : Membership) (ops : List QueueOp) :
    let t := Lib.run Tracked.step ⟨{ m with updateQueue := [] }, fun _ => []⟩ ops
    (t.m.updateQueue.map fun q => q.update.nodeID).Nodup ∧
      (∀ q ∈ t.m.updateQueue, q.sentCount < 3 ∧ Latest (t.since q.update.nodeID) q.update) ∧
      (∀ x, t.since x ≠ [] → ∃ q ∈ t.m.updateQueue, q.update.nodeID = x) ∧
      t.m.drainUpdates.1.length ≤ 10 ∧
      ∃ N, ∀ n ≥ N, (Lib.run queueStep t.m (List.replicate n .drain)).updateQueue = [] ∧
        (outputs queueStep queueOut t.m (List.replicate n .drain)).flatten.Perm
          (t.m.updateQueue.flatMap fun q => List.replicate (3 - q.sentCount) q.update) := by
  intro t
  have h : t.Inv := .run m ops
  refine ⟨h.nodup, fun q hq => ⟨h.sent q hq, h.latest q hq⟩, fun x hx => ?_, ?_,
    (owed t.m.updateQueue).length, fun n hn => ?_⟩
  · by_contra hnone
    exact hx (h.absent x fun hmem => hnone (List.mem_map.1 hmem))
  · rw [drainUpdates_eq]
    exact List.length_take_le _ _
  · have hsent : ∀ m : Membership, (∀ q ∈ m.updateQueue, q.sentCount < 3) →
        ∀ q ∈ (queueStep m .drain).updateQueue, q.sentCount < 3 :=
      fun m _ q hq => (mem_drained hq).1
    have hprogress : ∀ m : Membership, (∀ q ∈ m.updateQueue, q.sentCount < 3) →
        owed m.updateQueue ≠ [] → queueOut m .drain ≠ [] := by
      intro m hm hne hnil
      rw [queueOut, drainUpdates_eq] at hnil
      rcases hq : m.updateQueue with _ | ⟨q, l⟩
      · exact hne (by rw [hq]; rfl)
      · rw [hq] at hnil
        cases hnil
    obtain ⟨hend, hdone, hout⟩ := run_pays queueOut (fun m => owed m.updateQueue) hsent
      (fun m hm => owed_drain hm) hprogress h.sent hn
    exact ⟨(owed_eq_nil hend).1 hdone, hout⟩

end Membership

end DistCache
