/-
  The running replication manager: its connections, its goroutines and its events.

  * `connections_hung_up_once`: every connection dialed is either in use for one peer or closed,
    and none is closed twice;
  * `every_send_reports_once`: every goroutine ends with one event, and the events are received in
    their order, up to those dropped because 1000 were waiting;
  * `panics_iff`: what makes the process panic.
-/
import DistCache.Replicator
import DistCache.Proof.Scan

namespace DistCache.Replicator

open Lib (run Along Feed)
open CacheServer (wiring wiring_replicate)

/-! ## Connections -/

/-- The books of the connections. -/
structure Held (r : Replicator) : Prop where
  /-- `peerConns` holds the connection objects. -/
  peers : ∀ x, x ∈ r.conns ↔ x ∈ r.rm.peerConns
  /-- Connections that are dialed are in use or hung up, and no others. -/
  dialed_iff : ∀ i, i < r.dialed ↔ i ∈ r.hungUp ∨ ∃ x, r.conns.lookup x = some i
  /-- A connection in use is not hung up. -/
  open_of_lookup : ∀ x i, r.conns.lookup x = some i → i ∉ r.hungUp
  /-- It is used for one peer. -/
  injective : ∀ x y i, r.conns.lookup x = some i → r.conns.lookup y = some i → x = y
  /-- No connection is hung up twice. -/
  once : r.hungUp.Nodup

theorem held_new (selfID : NodeID) (replicaCount : ℤ) : (new selfID replicaCount).Held where
  peers x := Iff.rfl
  dialed_iff i := by simp [new]
  open_of_lookup x i h := by simp [new] at h
  injective x y i h := by simp [new] at h
  once := List.nodup_nil

/-- Steps that touch no connection. -/
theorem Held.congr {r r' : Replicator} (h : r.Held) (hp : r'.rm.peerConns = r.rm.peerConns)
    (hc : r'.conns = r.conns) (hd : r'.dialed = r.dialed) (hh : r'.hungUp = r.hungUp) :
    r'.Held where
  peers x := by rw [hc, hp]; exact h.peers x
  dialed_iff i := by rw [hd, hh, hc]; exact h.dialed_iff i
  open_of_lookup x i := by rw [hc, hh]; exact h.open_of_lookup x i
  injective x y i := by rw [hc]; exact h.injective x y i
  once := by rw [hh]; exact h.once

theorem Held.lt_dialed {r : Replicator} (h : r.Held) {x : NodeID} {i : ℕ}
    (hx : r.conns.lookup x = some i) : i < r.dialed :=
  (h.dialed_iff i).2 (Or.inr ⟨x, hx⟩)

/-- The connection dialed is a new one. -/
theorem Held.connectToPeer {r : Replicator} (h : r.Held) (dial : GoString → Bool) (nodeID : NodeID)
    (addr : GoString) : (r.connectToPeer dial nodeID addr).Held := by
  unfold Replicator.connectToPeer
  split_ifs with hmem hdial
  · exact h
  · have hnew : r.rm.connectToPeer dial nodeID addr =
        { r.rm with peerConns := r.rm.peerConns.insert nodeID addr } := by
      rw [ReplicationManager.connectToPeer, if_neg (mt (h.peers nodeID).2 hmem), if_pos hdial]
    have hlookup : ∀ x i, (r.conns.insert nodeID r.dialed).lookup x = some i →
        x = nodeID ∧ i = r.dialed ∨ x ≠ nodeID ∧ r.conns.lookup x = some i := by
      intro x i hx
      by_cases he : x = nodeID
      · subst he
        rw [Finmap.lookup_insert] at hx
        exact Or.inl ⟨rfl, (Option.some.inj hx).symm⟩
      · rw [Finmap.lookup_insert_of_ne _ he] at hx
        exact Or.inr ⟨he, hx⟩
    refine ⟨fun x => ?_, fun i => ?_, fun x i hx => ?_, fun x y i hx hy => ?_, h.once⟩
    · simp only [hnew, Finmap.mem_insert, h.peers x]
    · constructor
      · intro hi
        rcases Nat.lt_succ_iff_lt_or_eq.1 hi with hi | rfl
        · rcases (h.dialed_iff i).1 hi with hi | ⟨x, hx⟩
          · exact Or.inl hi
          · refine Or.inr ⟨x, ?_⟩
            have hne : x ≠ nodeID := by
              rintro rfl
              exact hmem (Finmap.mem_of_lookup_eq_some hx)
            exact (Finmap.lookup_insert_of_ne _ hne).trans hx
        · exact Or.inr ⟨nodeID, Finmap.lookup_insert _⟩
      · rintro (hi | ⟨x, hx⟩)
        · exact Nat.lt_succ_of_lt ((h.dialed_iff i).2 (Or.inl hi))
        · rcases hlookup x i hx with ⟨-, rfl⟩ | ⟨-, hx⟩
          · exact Nat.lt_succ_self _
          · exact Nat.lt_succ_of_lt (h.lt_dialed hx)
    · rcases hlookup x i hx with ⟨-, rfl⟩ | ⟨-, hx⟩
      · exact fun hmem => lt_irrefl _ ((h.dialed_iff _).2 (Or.inl hmem))
      · exact h.open_of_lookup x i hx
    · -- the new number is not among the old ones
      rcases hlookup x i hx with ⟨hxn, hxi⟩ | ⟨-, hx'⟩ <;>
        rcases hlookup y i hy with ⟨hyn, hyi⟩ | ⟨-, hy'⟩
      · rw [hxn, hyn]
      · exact absurd (h.lt_dialed hy') (by omega)
      · exact absurd (h.lt_dialed hx') (by omega)
      · exact h.injective x y i hx' hy'
  · exact h

theorem Held.disconnectPeer {r : Replicator} (h : r.Held) (nodeID : NodeID) :
    (r.disconnectPeer nodeID).Held := by
  unfold Replicator.disconnectPeer
  cases hl : r.conns.lookup nodeID with
  | none => exact h
  | some conn =>
    have hlookup : ∀ x i, (r.conns.erase nodeID).lookup x = some i →
        x ≠ nodeID ∧ r.conns.lookup x = some i := by
      intro x i hx
      by_cases he : x = nodeID
      · subst he
        rw [Finmap.lookup_erase] at hx
        cases hx
      · exact ⟨he, (Finmap.lookup_erase_ne he) ▸ hx⟩
    refine ⟨fun x => ?_, fun i => ?_, fun x i hx => ?_, fun x y i hx hy => ?_, ?_⟩
    · simp only [Finmap.mem_erase, h.peers x]
    · rw [List.mem_append, List.mem_singleton]
      constructor
      · intro hi
        rcases (h.dialed_iff i).1 hi with hi | ⟨x, hx⟩
        · exact Or.inl (Or.inl hi)
        · by_cases he : x = nodeID
          · subst he
            exact Or.inl (Or.inr (Option.some.inj (hx.symm.trans hl)))
          · exact Or.inr ⟨x, (Finmap.lookup_erase_ne he).trans hx⟩
      · rintro ((hi | rfl) | ⟨x, hx⟩)
        · exact (h.dialed_iff i).2 (Or.inl hi)
        · exact h.lt_dialed hl
        · exact h.lt_dialed (hlookup x i hx).2
    · obtain ⟨hne, hx'⟩ := hlookup x i hx
      rw [List.mem_append, List.mem_singleton, not_or]
      refine ⟨h.open_of_lookup x i hx', fun he => hne ?_⟩
      exact h.injective x nodeID i hx' (he ▸ hl)
    · exact h.injective x y i (hlookup x i hx).2 (hlookup y i hy).2
    · refine List.nodup_append.2 ⟨h.once, List.nodup_singleton conn, fun i hi j hj => ?_⟩
      rw [List.mem_singleton.1 hj]
      rintro rfl
      exact h.open_of_lookup nodeID i hl hi

/-- The connections in use, in the order of a `range` loop. -/
theorem Held.mem_conns {r : Replicator} (ord : RangeOrder NodeID ℕ) (i : ℕ) :
    i ∈ (ord.list r.conns).map Sigma.snd ↔ ∃ x, r.conns.lookup x = some i := by
  rw [List.mem_map]
  constructor
  · rintro ⟨⟨x, j⟩, hj, rfl⟩
    exact ⟨x, (ord.mem_list _).1 hj⟩
  · rintro ⟨x, hx⟩
    exact ⟨⟨x, i⟩, (ord.mem_list _).2 hx, rfl⟩

theorem Held.close {r : Replicator} (h : r.Held) (ord : RangeOrder NodeID ℕ) :
    (r.close ord).Held := by
  refine ⟨fun x => Iff.rfl, fun i => ?_, fun x i hx => ?_, fun x y i hx => ?_, ?_⟩
  · have hi := h.dialed_iff i
    rw [← Held.mem_conns ord i, ← List.mem_append] at hi
    simpa [Replicator.close] using hi
  · simp [Replicator.close] at hx
  · simp [Replicator.close] at hx
  · refine List.nodup_append.2 ⟨h.once, ?_, fun i hi j hj => ?_⟩
    · -- two entries with one connection are for one peer
      refine List.Nodup.map_on (fun e he e' he' hconn => ?_) (.of_map _ (ord.keys_nodup r.conns))
      obtain ⟨x, i⟩ := e
      obtain ⟨y, j⟩ := e'
      obtain rfl : i = j := hconn
      obtain rfl := h.injective x y i ((ord.mem_list _).1 he) ((ord.mem_list _).1 he')
      rfl
    · obtain ⟨x, hx⟩ := (Held.mem_conns ord j).1 hj
      rintro rfl
      exact h.open_of_lookup x i hx hi

theorem Held.start {r : Replicator} (h : r.Held) {out : ReplicationManager × List Send}
    (ho : wiring out.1 = wiring r.rm) : (r.start out).Held :=
  h.congr (congrArg (fun w => w.2.2) ho) rfl rfl rfl

theorem Held.replicate {r : Replicator} (h : r.Held) (ring : Ring) (key : Key)
    {out : ReplicationManager × List Send} (ho : wiring out.1 = wiring r.rm) :
    (r.replicate ring key out).Held := by
  unfold Replicator.replicate
  split_ifs
  · exact h.congr rfl rfl rfl rfl
  · exact h.start ho

theorem Held.step {r : Replicator} (h : r.Held) (a : Act) : (r.step a).Held := by
  unfold Replicator.step
  split_ifs with hf
  · exact h
  · cases a with
    | connectToPeer dial nodeID addr => exact h.connectToPeer dial nodeID addr
    | disconnectPeer nodeID => exact h.disconnectPeer nodeID
    | replicateWrite ring key value ttlMs => exact h.replicate ring key (wiring_replicate ..)
    | replicateDelete ring key => exact h.replicate ring key (wiring_replicate ..)
    | reReplicate ring ord store now => exact h.start (reReplicate_spec r.rm ring ord store now).1
    | lookup send => exact h.congr rfl rfl rfl rfl
    | finish fl ok => exact h.congr rfl rfl rfl rfl
    | receive => exact h.congr rfl rfl rfl rfl
    | close ord => exact h.close ord

theorem held_run (selfID : NodeID) (replicaCount : ℤ) (acts : List Act) :
    (run step (new selfID replicaCount) acts).Held :=
  Lib.run_inv (fun _ a h => h.step a) (held_new selfID replicaCount) acts

/-- **Connections are not leaked, and not closed twice**: whatever is connected, disconnected, fails
    and is replicated, the connections closed and those in use are the ones dialed, each once; those
    in use are for the peers of `peerConns`, and `Close` leaves none. -/
theorem connections_hung_up_once (selfID : NodeID) (replicaCount : ℤ) (acts : List Act)
    (ord : RangeOrder NodeID ℕ) :
    let r := run step (new selfID replicaCount) acts
    let r' := r.step (.close ord)
    (∀ x, x ∈ r.conns ↔ x ∈ r.rm.peerConns) ∧
      (r.hungUp ++ (ord.list r.conns).map Sigma.snd).Perm (List.range r.dialed) ∧
      (r.replicationEvents.fault = false →
        r'.hungUp.Perm (List.range r.dialed) ∧ r'.rm.peerConns = ∅) := by
  intro r r'
  have h : r.Held := held_run selfID replicaCount acts
  have hperm : (r.close ord).hungUp.Perm (List.range r.dialed) := by
    refine (List.perm_ext_iff_of_nodup (h.close ord).once List.nodup_range).2 fun i => ?_
    rw [List.mem_range, h.dialed_iff i, ← Held.mem_conns ord i]
    exact List.mem_append
  refine ⟨h.peers, hperm, fun hf => ?_⟩
  have hr' : r' = r.close ord := if_neg (by simp [hf])
  rw [hr']
  exact ⟨hperm, rfl⟩

/-! ## Events -/

/-- The replication of a key on this ring panics: no node is found for the key. -/
def Act.Panics (rm : ReplicationManager) : Act → Prop
  | .replicateWrite ring key _ _ | .replicateDelete ring key => rm.secondariesCapacity ring key < 0
  | _ => False

/-- What a step does to the channel of events. -/
def Act.op (rm : ReplicationManager) : Act → Option (Feed.Op ReplicationEvent)
  | .finish fl ok => some (.offer (fl.event ok))
  | .receive => some .receive
  | .close _ => some .close
  | .replicateWrite ring key _ _ | .replicateDelete ring key =>
    if rm.secondariesCapacity ring key < 0 then some .abort else none
  | .connectToPeer .. | .disconnectPeer _ | .reReplicate .. | .lookup _ => none

theorem Act.op_eq_abort {rm : ReplicationManager} {a : Act} :
    a.op rm = some .abort ↔ a.Panics rm := by
  cases a <;> simp [Act.op, Act.Panics]

theorem Act.op_eq_close {rm : ReplicationManager} {a : Act} :
    a.op rm = some .close ↔ ∃ ord, a = .close ord := by
  cases a <;> simp [Act.op]

theorem Act.op_needsOpen {rm : ReplicationManager} {a : Act} :
    (∃ op, a.op rm = some op ∧ op.NeedsOpen) ↔
      (∃ fl ok, a = .finish fl ok) ∨ ∃ ord, a = .close ord := by
  cases a <;> simp [Act.op, Feed.Op.NeedsOpen]

theorem connectToPeer_events (r : Replicator) (dial : GoString → Bool) (nodeID : NodeID)
    (addr : GoString) :
    (r.connectToPeer dial nodeID addr).replicationEvents = r.replicationEvents := by
  unfold Replicator.connectToPeer
  split_ifs <;> rfl

theorem disconnectPeer_events (r : Replicator) (nodeID : NodeID) :
    (r.disconnectPeer nodeID).replicationEvents = r.replicationEvents := by
  unfold Replicator.disconnectPeer
  split <;> rfl

theorem replicate_events (r : Replicator) (ring : Ring) (key : Key)
    (out : ReplicationManager × List Send) :
    (r.replicate ring key out).replicationEvents = run Feed.step r.replicationEvents
      (if r.rm.secondariesCapacity ring key < 0 then some Feed.Op.abort else none).toList := by
  unfold Replicator.replicate
  split_ifs <;> rfl

theorem step_events (r : Replicator) (a : Act) :
    (r.step a).replicationEvents = run Feed.step r.replicationEvents (a.op r.rm).toList := by
  unfold Replicator.step
  split_ifs with hf
  · cases ho : a.op r.rm with
    | none => rfl
    | some op => exact (if_pos hf).symm
  · cases a with
    | connectToPeer dial nodeID addr => exact connectToPeer_events r dial nodeID addr
    | disconnectPeer nodeID => exact disconnectPeer_events r nodeID
    | replicateWrite ring key value ttlMs => exact replicate_events ..
    | replicateDelete ring key => exact replicate_events ..
    | _ => rfl

/-- The replica count is set once. -/
theorem step_replicaCount (r : Replicator) (a : Act) :
    (r.step a).rm.replicaCount = r.rm.replicaCount := by
  have hreplicate : ∀ (ring : Ring) (key : Key) (out : ReplicationManager × List Send),
      wiring out.1 = wiring r.rm →
      (r.replicate ring key out).rm.replicaCount = r.rm.replicaCount := by
    intro ring key out ho
    unfold Replicator.replicate
    split_ifs
    · rfl
    · exact congrArg (fun w => w.2.1) ho
  unfold Replicator.step
  split_ifs with hf
  · rfl
  · cases a with
    | connectToPeer dial nodeID addr =>
      dsimp only
      unfold Replicator.connectToPeer ReplicationManager.connectToPeer
      split_ifs <;> rfl
    | disconnectPeer nodeID =>
      dsimp only
      unfold Replicator.disconnectPeer
      split <;> rfl
    | replicateWrite ring key value ttlMs => exact hreplicate ring key _ (wiring_replicate ..)
    | replicateDelete ring key => exact hreplicate ring key _ (wiring_replicate ..)
    | reReplicate ring ord store now =>
      exact congrArg (fun w => w.2.1) (reReplicate_spec r.rm ring ord store now).1
    | _ => rfl

theorem Act.op_congr {rm rm' : ReplicationManager} (h : rm'.replicaCount = rm.replicaCount)
    (a : Act) : a.op rm' = a.op rm := by
  cases a <;> simp [Act.op, ReplicationManager.secondariesCapacity, h]

/-- The channel sees the operations of a run. -/
theorem run_events (r : Replicator) (acts : List Act) :
    (run step r acts).replicationEvents =
      run Feed.step r.replicationEvents (acts.filterMap (Act.op r.rm)) := by
  have hall : Along step (fun _ _ => True) r acts :=
    Along.of_forall (P := fun _ => True) (fun _ _ => trivial) r
  refine (Along.simulates (R := fun r' t => r'.replicationEvents = t ∧
    r'.rm.replicaCount = r.rm.replicaCount) (fun r' t a ht _ => ?_) hall ⟨rfl, rfl⟩).1
  obtain ⟨rfl, hcount⟩ := ht
  refine ⟨?_, (step_replicaCount r' a).trans hcount⟩
  rw [step_events, Act.op_congr hcount]

/-- The books of the goroutines and of their events. -/
structure Booked (r : Replicator) : Prop where
  goroutines : (r.sends ++ r.flights.map Flight.send ++ r.finished.map fun e => e.1.send).Perm
    r.started
  reports : r.replicationEvents.fault = false →
    r.replicationEvents.offered = r.finished.map fun e => e.1.event e.2

theorem booked_new (selfID : NodeID) (replicaCount : ℤ) : (new selfID replicaCount).Booked :=
  ⟨.refl [], fun _ => rfl⟩

/-- Other operations on the channel offer nothing. -/
theorem Booked.operate {r r' : Replicator} (h : r.Booked) (op : Feed.Op ReplicationEvent)
    (hop : op.value = none) (he : r'.replicationEvents = r.replicationEvents.step op)
    (hs : r'.sends = r.sends) (hf : r'.flights = r.flights) (hd : r'.finished = r.finished)
    (ht : r'.started = r.started) : r'.Booked where
  goroutines := by
    rw [hs, hf, hd, ht]
    exact h.goroutines
  reports hfault := by
    rw [he] at hfault
    rw [he, hd, Feed.offered_step hfault, hop, h.reports (Feed.fault_of_step hfault)]
    exact List.append_nil _

theorem Booked.start {r : Replicator} (h : r.Booked) (out : ReplicationManager × List Send) :
    (r.start out).Booked where
  goroutines := by
    have hperm := h.goroutines.append_right out.2
    rw [List.append_assoc] at hperm
    refine List.Perm.trans ?_ hperm
    show (r.sends ++ out.2 ++ _ ++ _).Perm _
    rw [List.append_assoc, List.append_assoc, List.append_assoc]
    refine List.Perm.append_left _ ?_
    rw [← List.append_assoc (r.flights.map Flight.send)]
    exact List.perm_append_comm
  reports := h.reports

/-- A goroutine moves from `sends` to `flights`. -/
theorem Booked.lookup {r : Replicator} (h : r.Booked) {send : Send} (hs : send ∈ r.sends) :
    (r.lookup send).Booked where
  goroutines := by
    refine List.Perm.trans ?_ h.goroutines
    refine List.Perm.append_right _ ?_
    show (r.sends.erase send ++ (r.flights ++ [_]).map Flight.send).Perm _
    rw [List.map_append, List.map_singleton, ← List.append_assoc]
    refine List.perm_append_comm.trans ?_
    exact (List.perm_cons_erase hs).symm.append_right _
  reports := h.reports

/-- A goroutine moves from `flights` to `finished`, and offers its event. -/
theorem Booked.finish {r : Replicator} (h : r.Booked) {fl : Flight} (hf : fl ∈ r.flights)
    (ok : Bool) : (r.finish fl ok).Booked where
  goroutines := by
    refine List.Perm.trans ?_ h.goroutines
    show (r.sends ++ (r.flights.erase fl).map Flight.send ++
      (r.finished ++ [(fl, ok)]).map fun e => e.1.send).Perm _
    rw [List.append_assoc, List.append_assoc]
    refine List.Perm.append_left _ ?_
    rw [List.map_append, List.map_singleton, ← List.append_assoc]
    refine List.perm_append_comm.trans ?_
    exact ((List.perm_cons_erase hf).map Flight.send).symm.append_right _
  reports hfault := by
    have hoff := Feed.offered_step hfault
    rw [h.reports (Feed.fault_of_step hfault)] at hoff
    have hfin : (r.finish fl ok).finished = r.finished ++ [(fl, ok)] := rfl
    rw [hfin, List.map_append]
    exact hoff

theorem Booked.replicate {r : Replicator} (h : r.Booked) (ring : Ring) (key : Key)
    (out : ReplicationManager × List Send) : (r.replicate ring key out).Booked := by
  unfold Replicator.replicate
  split_ifs
  · exact h.operate .abort rfl rfl rfl rfl rfl rfl
  · exact h.start out

theorem Booked.step {r : Replicator} (h : r.Booked) {a : Act} (ha : r.Enabled a) :
    (r.step a).Booked := by
  unfold Replicator.step
  split_ifs with hf
  · exact h
  · cases a with
    | connectToPeer dial nodeID addr =>
      dsimp only
      unfold Replicator.connectToPeer
      split_ifs
      · exact h
      · exact ⟨h.goroutines, h.reports⟩
      · exact h
    | disconnectPeer nodeID =>
      dsimp only
      unfold Replicator.disconnectPeer
      split
      · exact h
      · exact ⟨h.goroutines, h.reports⟩
    | replicateWrite ring key value ttlMs => exact h.replicate ring key _
    | replicateDelete ring key => exact h.replicate ring key _
    | reReplicate ring ord store now => exact h.start _
    | lookup send => exact h.lookup ha
    | finish fl ok => exact h.finish ha ok
    | receive => exact h.operate .receive rfl rfl rfl rfl rfl rfl
    | close ord => exact h.operate .close rfl rfl rfl rfl rfl rfl

/-- **Every replication reports once**: a goroutine started is waiting, or has sent, or has offered
    its one event; what a receiver of `Events` sees, and what waits for it, are the events in their
    order, except those offered while 1000 were waiting. -/
theorem every_send_reports_once (selfID : NodeID) (replicaCount : ℤ) (acts : List Act)
    (h : Along step Enabled (new selfID replicaCount) acts) :
    let r := run step (new selfID replicaCount) acts
    let events := r.finished.map fun e => e.1.event e.2
    let t := r.replicationEvents
    (r.sends ++ r.flights.map Flight.send ++ r.finished.map fun e => e.1.send).Perm r.started ∧
      (t.fault = false → (t.received ++ t.chan.buffer).Sublist events ∧
        (t.received ++ t.chan.buffer ++ t.dropped).Perm events ∧
        (t.dropped ≠ [] → 1000 ≤ (t.received ++ t.chan.buffer).length) ∧
        (t.received = [] → t.chan.buffer = events.take 1000)) := by
  intro r events t
  have hb : r.Booked := h.inv (fun _ _ hr ha => hr.step ha) (booked_new selfID replicaCount)
  have hacc : t.Accounted := by
    show (run step (new selfID replicaCount) acts).replicationEvents.Accounted
    rw [run_events]
    exact Feed.accounted_run _
  refine ⟨hb.goroutines, fun hf => ?_⟩
  have he : t.offered = events := hb.reports hf
  rw [← he]
  exact ⟨hacc.order, hacc.perm, hacc.full, hacc.first⟩

/-- Two writes to a ring of two nodes; the first one is replicated and its event received. -/
def writeTwice : List Act :=
  let ring := (((Ring.new 1 0).addNode .insertion (ascii ['a'])).1.addNode .insertion
    (ascii ['b'])).1
  let send : Send := ⟨ascii ['b'], ⟨[1], [7], 0, 1, ascii ['a'], .set⟩⟩
  [.connectToPeer (fun _ => true) (ascii ['b']) [3], .replicateWrite ring [1] [7] 0,
    .replicateWrite ring [1] [8] 0, .lookup send, .finish ⟨send, some 0⟩ true, .receive]

theorem every_send_reports_once_two :
    let r := run step (new (ascii ['a']) 2) writeTwice
    r.started.length = 2 ∧ r.replicationEvents.received = [⟨[1], .set, ascii ['b'], true⟩] ∧
      (r.sends ++ r.flights.map Flight.send ++ r.finished.map fun e => e.1.send).Perm r.started := by
  intro r
  obtain ⟨hperm, -⟩ := every_send_reports_once (ascii ['a']) 2 writeTwice (by decide +kernel)
  exact ⟨by decide +kernel, by decide +kernel, hperm⟩

/-! ## Panics -/

/-- **What makes the process panic**: a run panics exactly if a write or delete is replicated for
    which the ring has no node, or `Close` runs, and later a goroutine still reaches `emitEvent`, or
    `Close` runs again. -/
theorem panics_iff (selfID : NodeID) (replicaCount : ℤ) (acts : List Act) :
    (run step (new selfID replicaCount) acts).replicationEvents.fault = true ↔
      (∃ a ∈ acts, a.Panics (.new selfID replicaCount)) ∨
      ∃ before after, acts = before ++ after ∧ (∃ ord, .close ord ∈ before) ∧
        ((∃ fl ok, .finish fl ok ∈ after) ∨ ∃ ord, .close ord ∈ after) := by
  rw [run_events]
  refine (Feed.fault_run _).trans (or_congr ?_ ⟨?_, ?_⟩)
  · rw [List.mem_filterMap]
    exact exists_congr fun a => and_congr_right fun _ => Act.op_eq_abort
  · rintro ⟨ops, ops', he, hclose, op, hop, hopen⟩
    obtain ⟨before, after, rfl, rfl, rfl⟩ := List.filterMap_eq_append_iff.1 he
    obtain ⟨a, ha, hac⟩ := List.mem_filterMap.1 hclose
    obtain ⟨b, hb, hbo⟩ := List.mem_filterMap.1 hop
    obtain ⟨ord, rfl⟩ := Act.op_eq_close.1 hac
    refine ⟨before, after, rfl, ⟨ord, ha⟩, ?_⟩
    rcases Act.op_needsOpen.1 ⟨op, hbo, hopen⟩ with ⟨fl, ok, rfl⟩ | ⟨ord', rfl⟩
    · exact Or.inl ⟨fl, ok, hb⟩
    · exact Or.inr ⟨ord', hb⟩
  · rintro ⟨before, after, rfl, ⟨ord, hclose⟩, hlate⟩
    refine ⟨before.filterMap (Act.op _), after.filterMap (Act.op _), List.filterMap_append, ?_, ?_⟩
    · exact List.mem_filterMap.2 ⟨_, hclose, rfl⟩
    · rcases hlate with ⟨fl, ok, hfl⟩ | ⟨ord', hagain⟩
      · exact ⟨_, List.mem_filterMap.2 ⟨_, hfl, rfl⟩, trivial⟩
      · exact ⟨_, List.mem_filterMap.2 ⟨_, hagain, rfl⟩, trivial⟩

end DistCache.Replicator
