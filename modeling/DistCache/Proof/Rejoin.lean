/-
  The handshake of a fresh node with a seed.

  The seed applies the ALIVE update of the join message and answers with its registry.
  The joining node registers what is Alive there, and refutes a Suspect or Dead record of
  itself; its next message has its own ALIVE update first.  So the seed takes back a node
  that it has as Suspect or Dead, but one that has left comes back with incarnation 0 only.
-/
import DistCache.Proof.Dissemination

namespace DistCache

open Lib

/-- The updates about `y`. -/
def about (y : NodeID) (us : List MembershipUpdate) : List MembershipUpdate :=
  us.filter fun u => u.nodeID = y

theorem about_cons_self {y : NodeID} {u : MembershipUpdate} (hu : u.nodeID = y)
    (us : List MembershipUpdate) : about y (u :: us) = u :: about y us :=
  List.filter_cons_of_pos (by simpa using hu)

theorem about_cons_of_ne {y : NodeID} {u : MembershipUpdate} (hu : u.nodeID ≠ y)
    (us : List MembershipUpdate) : about y (u :: us) = about y us :=
  List.filter_cons_of_neg (by simpa using hu)

theorem about_eq_nil {y : NodeID} {us : List MembershipUpdate} (h : ∀ u ∈ us, u.nodeID ≠ y) :
    about y us = [] :=
  List.filter_eq_nil_iff.2 fun u hu => by simpa using h u hu

/-- An ALIVE update with incarnation 0 is not stale for a record with incarnation 0. -/
theorem Record.update_alive_zero (st : NodeStatus) :
    Record.update (some (st, 0)) .alive 0 = some (.alive, 0) := by
  by_cases hs : st = .alive
  · simp [Record.update, hs]
  · simp [Record.update, hs]

namespace Membership

/-! ## Runs of updates -/

section
variable {m : Membership}

theorem run_applyUpdate_selfID (us : List MembershipUpdate) :
    (run applyUpdate m us).selfID = m.selfID :=
  run_inv (I := fun m' : Membership => m'.selfID = m.selfID)
    (fun m' u h => (m'.applyUpdate_selfID u).trans h) rfl us

/-- The record of a peer after a list of updates depends on those about it. -/
theorem view_run_about {y : NodeID} (hy : y ≠ m.selfID) (us : List MembershipUpdate) :
    (run applyUpdate m us).view y = run Record.apply (m.view y) (about y us) := by
  induction us generalizing m with
  | nil => rfl
  | cons u us ih =>
    rw [run_cons, ih (by simpa using hy), view_applyUpdate]
    by_cases hu : u.nodeID = y
    · rw [if_pos ⟨hu.symm, hy⟩, about_cons_self hu, run_cons]
      rfl
    · rw [if_neg fun h => hu h.1.symm, about_cons_of_ne hu]

/-- The own record is not touched by updates. -/
theorem view_run_self (us : List MembershipUpdate) :
    (run applyUpdate m us).view m.selfID = m.view m.selfID := by
  induction us generalizing m with
  | nil => rfl
  | cons u us ih =>
    have h := ih (m := m.applyUpdate u)
    rw [applyUpdate_selfID] at h
    rw [run_cons, h, view_applyUpdate, if_neg fun h => h.2 rfl]

/-- What an update about the node itself does to its incarnation. -/
def raise (i : UInt64) (u : MembershipUpdate) : UInt64 :=
  if u.status = .suspect ∨ u.status = .dead then
    if i ≤ u.incarnation then u.incarnation + 1 else i
  else i

theorem applyUpdate_incarnation (u : MembershipUpdate) :
    (m.applyUpdate u).incarnation =
      if u.nodeID = m.selfID then raise m.incarnation u else m.incarnation := by
  by_cases hself : u.nodeID = m.selfID
  · rw [applyUpdate, if_pos hself, if_pos hself, raise]
    split_ifs <;> simp_all [refute, queueUpdate]
  · rw [if_neg hself]
    have hout := applyUpdate_outcome m u
    generalize m.applyUpdate u = m' at hout ⊢
    cases hout with
    | refute he => exact absurd he hself
    | _ => rfl

theorem incarnation_run (us : List MembershipUpdate) :
    (run applyUpdate m us).incarnation = run raise m.incarnation (about m.selfID us) := by
  induction us generalizing m with
  | nil => rfl
  | cons u us ih =>
    rw [run_cons, ih, applyUpdate_selfID, applyUpdate_incarnation]
    by_cases hu : u.nodeID = m.selfID
    · rw [if_pos hu, about_cons_self hu, run_cons]
    · rw [if_neg hu, about_cons_of_ne hu]

end

/-! ## The membership list -/

/-- Every record is filed under its ID. -/
def Filed (m : Membership) : Prop := ∀ x info, m.registry.lookup x = some info → info.id = x

theorem Filed.applyUpdate {m : Membership} (h : m.Filed) (u : MembershipUpdate) :
    (m.applyUpdate u).Filed :=
  fun y => (m.applyUpdate_rewrites y u).id (h y)

theorem about_records {y : NodeID} {l : List (Σ _ : NodeID, NodeInfo)} (h : ∀ e ∈ l, e.2.id = e.1) :
    about y (l.map fun e => e.2.update) = (l.lookupAll y).map NodeInfo.update := by
  induction l with
  | nil => rfl
  | cons e l ih =>
    obtain ⟨x, info⟩ := e
    have hx : info.update.nodeID = x := h ⟨x, info⟩ List.mem_cons_self
    have ih := ih fun e he => h e (List.mem_cons_of_mem _ he)
    by_cases hy : x = y
    · subst hy
      rw [List.map_cons, about_cons_self hx, ih, List.lookupAll_cons_eq]
      rfl
    · rw [List.map_cons, about_cons_of_ne fun h => hy (hx.symm.trans h), ih,
        List.lookupAll_cons_ne _ _ fun h => hy h.symm]

/-- The membership list has one update about each node with a record. -/
theorem Filed.about_getAll {m : Membership} (h : m.Filed) (ord : RangeOrder NodeID NodeInfo)
    (y : NodeID) :
    about y ((m.getAll ord).map NodeInfo.update) =
      ((m.registry.lookup y).map NodeInfo.update).toList := by
  have hnodup : (ord.list m.registry).NodupKeys := ord.keys_nodup m.registry
  have hlookup : (ord.list m.registry).dlookup y = m.registry.lookup y := by
    ext info
    exact (List.mem_dlookup_iff hnodup).trans (ord.mem_list _)
  rw [getAll, List.map_map]
  refine (about_records fun e he => h e.1 e.2 ((ord.mem_list _).1 he)).trans ?_
  rw [List.lookupAll_eq_dlookup y hnodup, hlookup]
  cases m.registry.lookup y <;> rfl

/-! ## A node that has just started -/

/-- The own ALIVE update stands first in the queue, and the others are about peers. -/
def Leads (m : Membership) : Prop :=
  ∃ rest, m.updateQueue = ⟨m.selfAlive, 0⟩ :: rest ∧ ∀ q ∈ rest, q.update.nodeID ≠ m.selfID

theorem start_leads (selfID : NodeID) (addrs : Addrs) (injector : Option FaultInjector) :
    (start selfID addrs injector).Leads :=
  ⟨[], rfl, fun _ hq => absurd hq List.not_mem_nil⟩

theorem le_raise {i : UInt64} {u : MembershipUpdate} (hu : u.incarnation.toNat < 2 ^ 64 - 1) :
    i ≤ raise i u := by
  unfold raise
  split_ifs with hs hi
  · exact UInt64.le_trans hi (UInt64.le_of_lt (lt_succ_of_toNat_lt hu))
  · exact UInt64.le_refl _
  · exact UInt64.le_refl _

theorem Leads.applyUpdate {m : Membership} (h : m.Leads) {u : MembershipUpdate}
    (hu : u.nodeID = m.selfID → u.incarnation.toNat < 2 ^ 64 - 1) : (m.applyUpdate u).Leads := by
  obtain ⟨rest, hq, hrest⟩ := h
  have hout := applyUpdate_outcome m u
  have hinc := applyUpdate_incarnation (m := m) u
  generalize m.applyUpdate u = m' at hout hinc ⊢
  cases hout with
  | refute hself hs =>
    refine ⟨rest, ?_, hrest⟩
    rw [if_pos hself] at hinc
    have hle : m.selfAlive.incarnation ≤ (m.refute u).selfAlive.incarnation := by
      show m.incarnation ≤ (m.refute u).incarnation
      rw [hinc]
      exact le_raise (hu hself)
    have hid : m.selfAlive.nodeID = (m.refute u).selfAlive.nodeID := rfl
    show coalesce (m.refute u).selfAlive m.updateQueue = _
    rw [hq, coalesce, if_pos hid, if_pos hle]
  | join hself =>
    refine ⟨coalesce u rest, ?_, fun q hmem => ?_⟩
    · show coalesce u m.updateQueue = _
      rw [hq, coalesce, if_neg fun h => hself h.symm]
      rfl
    · rcases mem_coalesce hmem with he | hmem
      · rw [he]
        exact hself
      · exact hrest q hmem
  | _ => exact ⟨rest, hq, hrest⟩

theorem Leads.run {m : Membership} (h : m.Leads) {us : List MembershipUpdate}
    (hus : ∀ u ∈ about m.selfID us, u.incarnation.toNat < 2 ^ 64 - 1) :
    (Lib.run Membership.applyUpdate m us).Leads := by
  induction us generalizing m with
  | nil => exact h
  | cons u us ih =>
    refine ih (h.applyUpdate fun hu => hus u ?_) fun v hv => hus v ?_
    · rw [about_cons_self hu]
      exact List.mem_cons_self
    · rw [applyUpdate_selfID] at hv
      by_cases hu : u.nodeID = m.selfID
      · rw [about_cons_self hu]
        exact List.mem_cons_of_mem _ hv
      · rwa [about_cons_of_ne hu]

/-- The only drained update about such a node is its own ALIVE update. -/
theorem Leads.about_drained {m : Membership} (h : m.Leads) :
    about m.selfID m.drainUpdates.1 = [m.selfAlive] := by
  obtain ⟨rest, hq, hrest⟩ := h
  have hfst : m.drainUpdates.1 = (m.updateQueue.map QueuedUpdate.update).take 10 := by
    rw [drainUpdates_eq]
    rfl
  have hid : m.selfAlive.nodeID = m.selfID := rfl
  rw [hfst, hq, List.map_cons, List.take_succ_cons, about_cons_self hid, about_eq_nil]
  intro u hu
  obtain ⟨q, hmem, rfl⟩ := List.mem_map.1 (List.mem_of_mem_take hu)
  exact hrest q hmem

end Membership

/-! ## The handshake -/

/-- A node that has just started, and a seed. -/
structure Handshake where
  seed : Membership
  filed : seed.Filed
  nodeID : NodeID
  nodeID_ne : nodeID ≠ seed.selfID
  addrs : Addrs
  injector : Option FaultInjector
  ord : RangeOrder NodeID NodeInfo

namespace Handshake

variable (h : Handshake)

def joiner : Membership := .start h.nodeID h.addrs h.injector

/-- The message of `JoinCluster`. -/
def join : SwimMessage := h.joiner.message .join [] [h.joiner.selfAlive]

/-- The seed with the updates of the join message applied. -/
def seedJoined : Membership := run Membership.applyUpdate h.seed h.join.updates

/-- The answer of `handleJoin`. -/
def answer : SwimMessage := (h.seedJoined.handleJoin h.ord h.addrs.gossipAddr).msg

def joinerAnswered : Membership := run Membership.applyUpdate h.joiner h.answer.updates

/-- The seed with the updates applied that the joining node drains then. -/
def seedTold : Membership := run Membership.applyUpdate h.seedJoined h.joinerAnswered.drainUpdates.1

/-! ### The messages in the loops -/

/-- The receive loop applies the updates of a message one after the other. -/
theorem run_apply (resolve : GoString → Option UDPAddr) (s : Swim) (hping : ¬ s.ping.isMarking)
    {us : List MembershipUpdate} {msg : SwimMessage} {remote : UDPAddr}
    (hrecv : s.recv = .applying us msg remote) :
    run (Swim.step resolve) s (List.replicate us.length Swim.applies).flatten =
      { s with m := run Membership.applyUpdate s.m us, recv := .applying [] msg remote } := by
  induction us generalizing s with
  | nil =>
    rw [← hrecv]
    rfl
  | cons u us ih =>
    rw [List.length_cons, List.replicate_succ, List.flatten_cons, run_append,
      Swim.run_applies resolve s hrecv hping]
    exact ih _ hping rfl

/-- What the receive loop does with the next datagram, up to the handler, if nothing comes
    between. -/
def receive (msg : SwimMessage) : List Swim.Act :=
  .read :: (List.replicate msg.updates.length Swim.applies).flatten

theorem run_receive (resolve : GoString → Option UDPAddr) (s : Swim) (hping : ¬ s.ping.isMarking)
    {d : Datagram} {socket : List Datagram} (hrecv : s.recv = .reading)
    (hsocket : s.socket = d :: socket) (hblocked : s.m.isBlocked d.msg.senderID = false) :
    run (Swim.step resolve) s (receive d.msg) =
      { s with
        m := run Membership.applyUpdate s.m d.msg.updates
        socket
        recv := .applying [] d.msg d.addr } := by
  have hread : s.step resolve .read =
      { s with socket, recv := .applying d.msg.updates d.msg d.addr } := by
    simp [Swim.step, Swim.read, hrecv, hsocket, hblocked]
  rw [receive, run_cons, hread]
  exact run_apply resolve { s with socket, recv := .applying d.msg.updates d.msg d.addr } hping rfl

/-- **The handshake is what the loops do**: a seed that reads the join message gets to
    `seedJoined` and sends the answer, and the joining node gets to `joinerAnswered` with it. -/
theorem run_handshake (resolve : GoString → Option UDPAddr) {seed joiner : Swim}
    (hseed : seed.m = h.seed) (hjoiner : joiner.m = h.joiner)
    (hseed' : seed.recv = .reading ∧ seed.socket = [⟨h.addrs.gossipAddr, h.join⟩])
    (hjoiner' : joiner.recv = .reading ∧ joiner.socket = [⟨[], h.answer⟩])
    (hping : ¬ seed.ping.isMarking ∧ ¬ joiner.ping.isMarking)
    (hopen : h.seed.isBlocked h.nodeID = false ∧ h.joiner.isBlocked h.seed.selfID = false) :
    (run (Swim.step resolve) seed (receive h.join ++ [.dispatch h.ord])).m = h.seedJoined ∧
    (run (Swim.step resolve) seed (receive h.join ++ [.dispatch h.ord])).sent =
      seed.sent ++ [⟨h.addrs.gossipAddr, h.answer⟩] ∧
    (run (Swim.step resolve) joiner (receive h.answer)).m = h.joinerAnswered := by
  have hread := run_receive resolve seed hping.1 hseed'.1 hseed'.2 (by rw [hseed]; exact hopen.1)
  have hread' := run_receive resolve joiner hping.2 hjoiner'.1 hjoiner'.2 (by
    rw [hjoiner]
    exact (congrArg _ (Membership.run_applyUpdate_selfID _)).trans hopen.2)
  have hjoined : run Membership.applyUpdate seed.m h.join.updates = h.seedJoined := by
    rw [hseed, seedJoined]
  rw [run_append, hread, hread', hjoined, hjoiner]
  exact ⟨rfl, rfl, rfl⟩

/-! ### The records -/

theorem about_join_of_ne {y : NodeID} (hy : y ≠ h.nodeID) : about y h.join.updates = [] :=
  about_eq_nil fun u hu => by
    rw [List.mem_singleton.1 hu]
    exact fun he => hy he.symm

theorem view_seedJoined_of_ne {y : NodeID} (hy : y ≠ h.nodeID) :
    h.seedJoined.view y = h.seed.view y := by
  by_cases hself : y = h.seed.selfID
  · rw [hself]
    exact Membership.view_run_self _
  · rw [seedJoined, Membership.view_run_about hself, h.about_join_of_ne hy]
    rfl

theorem view_seedJoined : h.seedJoined.view h.nodeID = (h.seed.view h.nodeID).update .alive 0 := by
  have habout : about h.nodeID h.join.updates = [h.joiner.selfAlive] := about_cons_self rfl []
  rw [seedJoined, Membership.view_run_about h.nodeID_ne, habout]
  rfl

theorem seedJoined_filed : h.seedJoined.Filed :=
  run_inv (I := Membership.Filed) (fun _ u hf => hf.applyUpdate u) h.filed _

theorem about_answer (y : NodeID) :
    about y h.answer.updates = ((h.seedJoined.registry.lookup y).map NodeInfo.update).toList :=
  h.seedJoined_filed.about_getAll h.ord y

/-- The joining node registers what is Alive at the seed. -/
theorem view_joinerAnswered_of_ne {y : NodeID} (hy : y ≠ h.nodeID) :
    h.joinerAnswered.view y = (h.seed.view y).filter fun r => r.1 = .alive := by
  have hnone : h.joiner.view y = none := by rw [joiner, Membership.view_start, if_neg hy]
  rw [joinerAnswered, Membership.view_run_about hy, h.about_answer, hnone,
    ← h.view_seedJoined_of_ne hy, Membership.view]
  rcases h.seedJoined.registry.lookup y with _ | info
  · rfl
  · by_cases hs : info.status = .alive
    · simp [Record.apply, Record.update, NodeInfo.update, Option.filter, hs]
    · simp [Record.apply, Record.update, NodeInfo.update, Option.filter, hs]

theorem view_joinerAnswered : h.joinerAnswered.view h.nodeID = some (.alive, 0) := by
  have hself : h.joiner.view h.nodeID = some (.alive, 0) := by
    rw [joiner, Membership.view_start, if_pos rfl]
  exact (Membership.view_run_self (m := h.joiner) _).trans hself

/-- The incarnation of the joining node after the answer. -/
theorem joinerAnswered_incarnation :
    h.joinerAnswered.incarnation =
      run Membership.raise 0 ((h.seedJoined.registry.lookup h.nodeID).map NodeInfo.update).toList := by
  rw [← h.about_answer]
  exact Membership.incarnation_run (m := h.joiner) _

/-- What the joining node tells the seed about itself. -/
theorem view_seedTold {st : NodeStatus} {inc : UInt64}
    (hview : h.seedJoined.view h.nodeID = some (st, inc)) (hinc : inc.toNat < 2 ^ 64 - 1) :
    h.seedTold.view h.nodeID =
      Record.update (some (st, inc)) .alive
        (if st = .suspect ∨ st = .dead then inc + 1 else 0) := by
  obtain ⟨info, hl, hst⟩ := Option.map_eq_some_iff.1 hview
  have hstatus : info.status = st := congrArg Prod.fst hst
  have hincarnation : info.incarnation = inc := congrArg Prod.snd hst
  have hself : h.joinerAnswered.selfID = h.nodeID := Membership.run_applyUpdate_selfID _
  have hleads : h.joinerAnswered.Leads := by
    refine (Membership.start_leads _ _ _).run fun u hu => ?_
    have hu' : u ∈ about h.nodeID h.answer.updates := hu
    rw [h.about_answer, hl] at hu'
    rw [List.mem_singleton.1 hu']
    show info.incarnation.toNat < 2 ^ 64 - 1
    rw [hincarnation]
    exact hinc
  have hraise : h.joinerAnswered.incarnation =
      if st = .suspect ∨ st = .dead then inc + 1 else 0 := by
    rw [h.joinerAnswered_incarnation, hl]
    show Membership.raise 0 info.update = _
    rw [← hstatus, ← hincarnation, Membership.raise, if_pos UInt64.zero_le]
    rfl
  have habout := hleads.about_drained
  rw [hself] at habout
  have hne : h.nodeID ≠ h.seedJoined.selfID := by
    rw [seedJoined, Membership.run_applyUpdate_selfID]
    exact h.nodeID_ne
  rw [seedTold, Membership.view_run_about hne, habout, hview, ← hraise]
  rfl

/-- **When a restarted node rejoins.**  The seed has the node as Alive after the handshake if
    and only if the old record has incarnation 0, or is Alive, Suspect or Dead. -/
theorem rejoin_alive_iff {st : NodeStatus} {inc : UInt64}
    (hrecord : h.seed.view h.nodeID = some (st, inc)) (hinc : inc.toNat < 2 ^ 64 - 1) :
    (h.seedTold.view h.nodeID).map Prod.fst = some .alive ↔
      inc = 0 ∨ st = .alive ∨ st = .suspect ∨ st = .dead := by
  have hjoined := h.view_seedJoined
  rw [hrecord] at hjoined
  by_cases hzero : inc = 0
  · -- the ALIVE update of the join message is not stale
    have halive : h.seedJoined.view h.nodeID = some (.alive, 0) := by
      rw [hjoined, hzero, Record.update_alive_zero]
    rw [h.view_seedTold halive (by decide)]
    exact iff_of_true rfl (Or.inl hzero)
  · -- it is stale; the refutation is not
    have hpos : 0 < inc := UInt64.pos_iff_ne_zero.2 hzero
    have hold : h.seedJoined.view h.nodeID = some (st, inc) := by
      rw [hjoined, Record.update, if_pos hpos]
    rw [h.view_seedTold hold hinc]
    by_cases hs : st = .suspect ∨ st = .dead
    · have hle : inc ≤ inc + 1 := UInt64.le_of_lt (lt_succ_of_toNat_lt hinc)
      have hne : st ≠ .alive := by
        rintro rfl
        rcases hs with hs | hs <;> cases hs
      rw [if_pos hs, Record.update, if_neg (UInt64.not_lt.2 hle)]
      exact iff_of_true (by rw [if_neg hne]; rfl) (Or.inr (Or.inr hs))
    · rw [if_neg hs, Record.update, if_pos hpos]
      constructor
      · intro he
        exact Or.inr (Or.inl (Option.some.inj he))
      · rintro (he | rfl | he)
        · exact absurd he hzero
        · rfl
        · exact absurd he hs

/-! ### The nodes that are up -/

theorem up_joinerAnswered_of_ne {y : NodeID} (hy : y ≠ h.nodeID) :
    Up h.joinerAnswered y ↔ ∃ inc, h.seed.view y = some (.alive, inc) := by
  unfold Up
  rw [h.view_joinerAnswered_of_ne hy]
  constructor
  · rintro ⟨st, inc, hview, -⟩
    obtain ⟨hseed, halive⟩ := Option.filter_eq_some_iff.1 hview
    obtain rfl : st = .alive := of_decide_eq_true halive
    exact ⟨inc, hseed⟩
  · rintro ⟨inc, hseed⟩
    refine ⟨.alive, inc, ?_, Or.inl rfl⟩
    rw [hseed]
    rfl

/-- The seed takes the joining node back, unless it has left or died with a higher
    incarnation. -/
theorem up_seedJoined :
    Up h.seedJoined h.nodeID ↔
      ∀ st inc, h.seed.view h.nodeID = some (st, inc) → inc = 0 ∨ st = .alive ∨ st = .suspect := by
  unfold Up
  rw [h.view_seedJoined]
  rcases h.seed.view h.nodeID with _ | ⟨st, inc⟩
  · exact iff_of_true ⟨.alive, 0, rfl, Or.inl rfl⟩ fun st inc he => nomatch he
  · by_cases hzero : inc = 0
    · refine iff_of_true ⟨.alive, 0, ?_, Or.inl rfl⟩ fun st' inc' he => Or.inl ?_
      · rw [hzero, Record.update_alive_zero]
      · rw [← (Prod.mk.inj (Option.some.inj he)).2, hzero]
    · rw [Record.update, if_pos (UInt64.pos_iff_ne_zero.2 hzero)]
      constructor
      · rintro ⟨st₁, inc₁, hview, hup⟩ st₂ inc₂ he
        obtain ⟨rfl, rfl⟩ := Prod.mk.inj (Option.some.inj (hview.symm.trans he))
        exact Or.inr hup
      · intro hall
        exact ⟨st, inc, rfl, (hall st inc rfl).resolve_left hzero⟩

/-- **When the handshake transfers the membership.**  After the answer, the joining node has
    the same nodes up as the seed if and only if no other node is Suspect at the seed, and the
    record of the joining node, if there is an old one, has incarnation 0, or is Alive or
    Suspect. -/
theorem handshake_transfers_iff :
    (∀ y, Up h.joinerAnswered y ↔ Up h.seedJoined y) ↔
      (∀ y ≠ h.nodeID, ∀ inc, h.seed.view y ≠ some (.suspect, inc)) ∧
      ∀ st inc, h.seed.view h.nodeID = some (st, inc) → inc = 0 ∨ st = .alive ∨ st = .suspect := by
  have hself : Up h.joinerAnswered h.nodeID := ⟨.alive, 0, h.view_joinerAnswered, Or.inl rfl⟩
  rw [← h.up_seedJoined]
  constructor
  · intro hup
    refine ⟨fun y hy inc hs => ?_, (hup h.nodeID).1 hself⟩
    have hseed : Up h.seedJoined y := ⟨.suspect, inc, by rw [h.view_seedJoined_of_ne hy, hs], Or.inr rfl⟩
    obtain ⟨inc', hal⟩ := (h.up_joinerAnswered_of_ne hy).1 ((hup y).2 hseed)
    rw [hs] at hal
    cases hal
  · rintro ⟨hothers, hnode⟩ y
    by_cases hy : y = h.nodeID
    · rw [hy]
      exact iff_of_true hself hnode
    · rw [h.up_joinerAnswered_of_ne hy, Up, h.view_seedJoined_of_ne hy]
      constructor
      · rintro ⟨inc, hal⟩
        exact ⟨.alive, inc, hal, Or.inl rfl⟩
      · rintro ⟨st, inc, hview, rfl | rfl⟩
        · exact ⟨inc, hview⟩
        · exact absurd hview (hothers y hy inc)

end Handshake

/-! ### Examples -/

/-- Node `x` joins the seed `s`, which has heard `us` and lists its registry as `records`. -/
noncomputable def joining (us : List MembershipUpdate) (records : List (Σ _ : NodeID, NodeInfo)) :
    Handshake where
  seed := (run (Swim.step some) (.start (ascii ['s']) ⟨[], [], []⟩ none) (hears us us.length)).m
  filed := (Swim.recorded_of_run some _ _ _ _).id
  nodeID := ascii ['x']
  nodeID_ne := by
    rw [run_inv (I := fun s : Swim => s.m.selfID = ascii ['s'])
      (fun s a h => (Swim.step_selfID some s a).trans h) rfl]
    decide
  addrs := ⟨[], [], []⟩
  injector := none
  ord := .listing records

/-- The record of a node without addresses. -/
def recordOf (x : NodeID) (status : NodeStatus) (incarnation : UInt64) : Σ _ : NodeID, NodeInfo :=
  ⟨x, ⟨x, ⟨[], [], []⟩, status, incarnation⟩⟩

namespace Handshake

/-- The seed has `x` as Dead with incarnation 3, and takes it back. -/
theorem rejoin_alive_dead :
    let h := joining [.report (ascii ['x']) .alive 3, .report (ascii ['x']) .dead 3]
      [recordOf (ascii ['s']) .alive 0, recordOf (ascii ['x']) .dead 3]
    h.seed.view h.nodeID = some (.dead, 3) ∧
      (h.seedTold.view h.nodeID).map Prod.fst = some .alive :=
  ⟨by decide +kernel, (@rejoin_alive_iff _ .dead 3 (by decide +kernel) (by decide)).2 (by decide)⟩

/-- The seed has `x` as Left with incarnation 1, and does not take it back. -/
theorem rejoin_left_rejected :
    let h := joining [.report (ascii ['x']) .alive 0, .report (ascii ['x']) .suspect 0,
        .report (ascii ['x']) .alive 1, .report (ascii ['x']) .left 1]
      [recordOf (ascii ['s']) .alive 0, recordOf (ascii ['x']) .left 1]
    h.seed.view h.nodeID = some (.left, 1) ∧ h.seedTold.view h.nodeID = some (.left, 1) := by
  decide +kernel

/-- A seed that has `b` as Alive and `c` as Dead: both nodes have `b` up, and not `c`. -/
theorem handshake_transfers_peers :
    let h := joining [.report (ascii ['b']) .alive 0, .report (ascii ['c']) .alive 0,
        .report (ascii ['c']) .dead 0]
      [recordOf (ascii ['s']) .alive 0, recordOf (ascii ['b']) .alive 0,
        recordOf (ascii ['c']) .dead 0, recordOf (ascii ['x']) .alive 0]
    h.joinerAnswered.view (ascii ['b']) = some (.alive, 0) ∧
      h.joinerAnswered.view (ascii ['c']) = none ∧
      ∀ y, Up h.joinerAnswered y ↔ Up h.seedJoined y := by
  intro h
  have hnodes : h.seed.registry.keys = {ascii ['s'], ascii ['b'], ascii ['c']} := by decide +kernel
  have hx : h.seed.view h.nodeID = none := by decide +kernel
  refine ⟨by decide +kernel, by decide +kernel,
    h.handshake_transfers_iff.2 ⟨fun y _ inc hs => ?_, fun st inc hs => ?_⟩⟩
  · -- none of the three nodes at the seed is Suspect
    have hy : y ∈ h.seed.registry.keys := by
      obtain ⟨info, hl, -⟩ := Option.map_eq_some_iff.1 hs
      exact Finmap.mem_keys.2 (Finmap.lookup_isSome.1 (by rw [hl]; rfl))
    have hnot : ∀ z ∈ ({ascii ['s'], ascii ['b'], ascii ['c']} : Finset NodeID),
        (h.seed.view z).map Prod.fst ≠ some .suspect := by decide +kernel
    exact hnot y (hnodes ▸ hy) (by rw [hs]; rfl)
  · rw [hx] at hs
    cases hs

/-- Node `b` is Suspect at the seed, and the joining node has no record of it. -/
theorem handshake_drops_suspect :
    let h := joining [.report (ascii ['b']) .alive 0, .report (ascii ['b']) .suspect 0]
      [recordOf (ascii ['s']) .alive 0, recordOf (ascii ['b']) .suspect 0,
        recordOf (ascii ['x']) .alive 0]
    h.seedJoined.view (ascii ['b']) = some (.suspect, 0) ∧
      h.joinerAnswered.view (ascii ['b']) = none := by
  decide +kernel

end Handshake

end DistCache
