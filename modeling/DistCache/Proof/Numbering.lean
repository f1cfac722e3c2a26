/-
  The numbers of the replication messages.

  Whatever a handler or a callback sends is numbered by the manager of its node, request after
  request (`Numbered`): the numbers used by a process are those from 1 to its counter, and a number
  belongs to one request, sent once to each of its targets.
-/
import DistCache.Proof.Fleet
import DistCache.Proof.Scan

namespace DistCache

open Lib CacheServer

/-! ## Numbered requests -/

/-- A manager turns into another by numbering requests of its own, one after another, with the
    goroutines `sends` started for them. -/
inductive Numbered (ring : Ring) (rm : ReplicationManager) :
    ReplicationManager → List Send → Prop
  | refl : Numbered ring rm rm []
  | replicate {rm' : ReplicationManager} {sends : List Send} (key : Key)
      (f : UInt64 → ReplicateRequest) : Numbered ring rm rm' sends →
      (∀ seq, (f seq).sequence = seq ∧ (f seq).sourceNode = rm.selfID) →
      Numbered ring rm (rm'.replicate ring key f).1 (sends ++ (rm'.replicate ring key f).2)

section
variable {ring : Ring} {rm rm' : ReplicationManager} {sends : List Send}

theorem Numbered.wiring_eq (h : Numbered ring rm rm' sends) : wiring rm' = wiring rm := by
  induction h with
  | refl => rfl
  | replicate key f _ _ ih => exact (wiring_replicate ..).trans ih

theorem Numbered.selfID_eq (h : Numbered ring rm rm' sends) : rm'.selfID = rm.selfID :=
  congrArg Prod.fst h.wiring_eq

/-- The goroutines are for other members of the ring. -/
theorem Numbered.target (h : Numbered ring rm rm' sends) (hwf : ring.WF) :
    ∀ send ∈ sends, send.nodeID ∈ ring.nodes ∧ send.nodeID ≠ rm.selfID ∧
      send.req.sourceNode = rm.selfID := by
  induction h with
  | refl => exact fun send hs => by cases hs
  | @replicate rm' sends key f h hf ih =>
    intro send hs
    rcases List.mem_append.1 hs with hs | hs
    · exact ih send hs
    · obtain ⟨hid, hreq⟩ := mem_replicate.1 hs
      rw [ReplicationManager.getSecondaries, hwf.getNodes_eq, List.mem_filter, h.selfID_eq] at hid
      rw [hreq]
      exact ⟨hwf.mem_order.1 (List.mem_of_mem_take hid.1), by simpa using hid.2, (hf _).2⟩

/-- One request. -/
theorem numbered_replicate (key : Key) {f : UInt64 → ReplicateRequest}
    (hf : ∀ seq, (f seq).sequence = seq ∧ (f seq).sourceNode = rm.selfID) :
    Numbered ring rm (rm.replicate ring key f).1 (rm.replicate ring key f).2 :=
  Numbered.refl.replicate key f hf

/-- The scan of `reReplicateForDeadNode`. -/
theorem numbered_rescan (vs : List (Key × Value × Duration)) (h : Numbered ring rm rm' sends) :
    Numbered ring rm (Store.forEachLoop (rescan ring) vs (rm', sends)).1
      (Store.forEachLoop (rescan ring) vs (rm', sends)).2 := by
  induction vs generalizing rm' sends with
  | nil => exact h
  | cons v vs ih =>
    obtain ⟨key, value, ttl⟩ := v
    by_cases hp : rm'.isPrimary ring key = true
    · simp only [Store.forEachLoop, rescan, hp, if_true]
      exact ih (h.replicate key _ fun seq => ⟨rfl, h.selfID_eq⟩)
    · simp only [Store.forEachLoop, rescan, hp]
      exact ih h

theorem numbered_reReplicate (rm : ReplicationManager) (ord : RangeOrder Key Entry)
    (store : Store) (now : Time) :
    Numbered ring rm (rm.reReplicateForDeadNode ring ord store now).1
      (rm.reReplicateForDeadNode ring ord store now).2 :=
  numbered_rescan (store.visits ord now) .refl

end

/-! ## Handlers -/

section
variable (cs : CacheServer) {rm : ReplicationManager}

theorem numbered_ifPrimary (hrm : cs.replicationMgr = some rm) (key : Key)
    {f : ReplicationManager → ReplicationManager × List Send}
    (hf : Numbered cs.ring rm (f rm).1 (f rm).2) :
    ∃ rm', (cs.ifPrimary key f).2.replicationMgr = some rm' ∧
      Numbered cs.ring rm rm' (cs.ifPrimary key f).1 := by
  simp only [ifPrimary, hrm]
  split_ifs
  · exact ⟨_, rfl, hf⟩
  · exact ⟨rm, hrm, .refl⟩

/-- What a handler sends is numbered. -/
theorem numbered_handle (hrm : cs.replicationMgr = some rm) (now : Time) (req : Request) :
    ∃ rm', (cs.handle now req).2.replicationMgr = some rm' ∧
      Numbered cs.ring rm rm' (cs.handle now req).1.sends := by
  cases hf : cs.forwardTarget req.serves req.key with
  | some p =>
    rw [cs.handle_proxy now req hf]
    exact ⟨rm, hrm, .refl⟩
  | none =>
    rw [cs.handle_serve now req hf]
    cases req with
    | get req =>
      obtain ⟨isHot, hget⟩ := cs.serveGet_fst now req.key
      have hmgr : (cs.serveGet now req).2.replicationMgr = some rm := by
        unfold serveGet checkHot
        split
        · exact hrm
        · dsimp only
          split
          · exact hrm
          · exact hrm
      refine ⟨rm, hmgr, ?_⟩
      show Numbered cs.ring rm rm (cs.serveGet now req).1.sends
      rw [hget]
      exact .refl
    | set req =>
      exact numbered_ifPrimary
        { cs with store := cs.write now req.key req.value (ttlOfMs req.ttlMs) } hrm req.key
        (numbered_replicate req.key fun seq => ⟨rfl, rfl⟩)
    | delete req =>
      exact numbered_ifPrimary { cs with store := (cs.store.delete req.key).2 } hrm req.key
        (numbered_replicate req.key fun seq => ⟨rfl, rfl⟩)
    | expire req =>
      simp only [serve, serveExpire]
      split
      · exact ⟨rm, hrm, .refl⟩
      · simp only [replicateExpire, hrm]
        split_ifs
        · split
          · exact ⟨rm, rfl, .refl⟩
          · exact ⟨_, rfl, numbered_replicate req.key fun seq => ⟨rfl, rfl⟩⟩
        · exact ⟨rm, rfl, .refl⟩

end

/-! ## Nodes -/

/-- What a transition from `n` to `n'` does to the manager: the connections become `conns`, taken
    from the records of the node or from a callback where they are new, and then requests are
    numbered, with goroutines `sends` that are added to those started before. -/
structure Manages (n n' : Node) (rm : ReplicationManager) (conns : GoMap NodeID GoString)
    (rm' : ReplicationManager) (sends : List Send) : Prop where
  mgr : n'.server.replicationMgr = some rm'
  numbered : Numbered n.server.ring { rm with peerConns := conns } rm' sends
  sends : n'.sends = n.sends ++ sends
  conns : ∀ y addr, conns.lookup y = some addr → rm.peerConns.lookup y = some addr ∨
    y ≠ n.server.nodeID ∧
      ((∃ info, n.swim.m.registry.lookup y = some info ∧ info.addrs.grpcAddr = addr) ∨
        ∃ cb ∈ n.running, cb.event.nodeID = y ∧ cb.stage.addr = some addr)

/-- The manager is left alone. -/
theorem manages_same {n n' : Node} {rm : ReplicationManager}
    (hrm : n'.server.replicationMgr = some rm) (hs : n'.sends = n.sends) :
    Manages n n' rm rm.peerConns rm [] where
  mgr := hrm
  numbered := .refl
  sends := by rw [hs, List.append_nil]
  conns _ _ h := Or.inl h

/-- A section of a callback, which has been started if it has a stage. -/
theorem manages_section {env : Env} {n n' : Node} {rm : ReplicationManager}
    (hrm : n.server.replicationMgr = some rm) {event : MembershipEvent}
    {ord : RangeOrder Key Entry} {now : Time} {stage : Option Wired.Stage}
    {r : Wired × Option Wired.Stage}
    (heff : Wired.SectionEffect env n.wired ord now event stage r)
    (hstage : ∀ st, stage = some st → ⟨event, st⟩ ∈ n.running)
    (hmgr : n'.server.replicationMgr = r.1.server.replicationMgr) (hsends : n'.sends = r.1.sends) :
    ∃ conns rm' sends, Manages n n' rm conns rm' sends := by
  cases heff with
  | idle | added | removed => exact ⟨_, _, _, manages_same (hmgr.trans hrm) hsends⟩
  | @connected _ next rm₁ addr hrm₁ hne haddr =>
    obtain rfl : rm = rm₁ := Option.some.inj (hrm.symm.trans hrm₁)
    by_cases hmem : event.nodeID ∈ rm.peerConns ∨ env.dial addr = false
    · have hconn : rm.connectToPeer env.dial event.nodeID addr = rm := by
        rcases hmem with hmem | hmem <;> simp [ReplicationManager.connectToPeer, hmem]
      exact ⟨_, _, _, manages_same (hmgr.trans (congrArg some hconn)) hsends⟩
    · obtain ⟨hmem, hdial⟩ := not_or.1 hmem
      have hconn : rm.connectToPeer env.dial event.nodeID addr =
          { rm with peerConns := rm.peerConns.insert event.nodeID addr } := by
        simp [ReplicationManager.connectToPeer, hmem, hdial]
      refine ⟨_, _, [], hmgr.trans (congrArg some hconn), .refl,
        hsends.trans (List.append_nil _).symm, fun y addr' hy => ?_⟩
      by_cases hye : y = event.nodeID
      · subst hye
        rw [Finmap.lookup_insert] at hy
        obtain rfl := Option.some.inj hy
        refine Or.inr ⟨hne, haddr.imp id fun hst => ?_⟩
        obtain ⟨st, hst, ha⟩ := Option.bind_eq_some_iff.1 hst
        exact ⟨_, hstage st hst, rfl, ha⟩
      · rw [Finmap.lookup_insert_of_ne _ hye] at hy
        exact Or.inl hy
  | @closed rm₁ hrm₁ =>
    obtain rfl : rm = rm₁ := Option.some.inj (hrm.symm.trans hrm₁)
    refine ⟨_, _, [], hmgr, .refl, hsends.trans (List.append_nil _).symm, fun y addr hy => ?_⟩
    exact Or.inl (GoMap.of_lookup_erase hy).2
  | @replicated rm₁ hrm₁ =>
    obtain rfl : rm = rm₁ := Option.some.inj (hrm.symm.trans hrm₁)
    exact ⟨rm.peerConns, _, _, hmgr, numbered_reReplicate rm ord n.server.store now, hsends,
      fun _ _ => Or.inl⟩

/-- **What a transition of a node does to its manager.** -/
theorem Node.step_manages (env : Env) (resolve : GoString → Option UDPAddr) {n : Node}
    {rm : ReplicationManager} (hrm : n.server.replicationMgr = some rm) (a : Node.Act) :
    ∃ conns rm' sends, Manages n (n.step env resolve a) rm conns rm' sends := by
  cases a with
  | swim a => exact ⟨_, _, _, manages_same hrm rfl⟩
  | handle event =>
    obtain ⟨w, next, heff, he⟩ := n.handle_section env resolve event default 0
    rw [he]
    exact manages_section hrm heff (fun st hst => by cases hst) rfl rfl
  | resume i ord now =>
    rcases n.resume_section env resolve i ord now with he | ⟨cb, w, next, hcb, heff, he⟩
    · rw [he]
      exact ⟨_, _, _, manages_same hrm rfl⟩
    · rw [he]
      refine manages_section hrm heff (fun st hst => ?_) rfl rfl
      obtain rfl := Option.some.inj hst
      exact List.mem_of_getElem? hcb
  | request now req =>
    obtain ⟨rm', hrm', hnum⟩ := numbered_handle n.server hrm now req
    exact ⟨rm.peerConns, rm', _, hrm', hnum, rfl, fun _ _ => Or.inl⟩
  | replicate now req =>
    exact ⟨_, _, _, manages_same ((n.server.replicate_replicationMgr now req).trans hrm) rfl⟩

/-! ## The numbers used -/

/-- The goroutines `sends` were numbered by `rm`, without a gap: a number belongs to one request,
    and no target gets it twice. -/
structure Counted (rm : ReplicationManager) (sends : List Send) : Prop where
  le : rm.sequence.toNat ≤ sends.length
  used : ∀ i, (∃ send ∈ sends, send.req.sequence.toNat = i) ↔ 1 ≤ i ∧ i ≤ rm.sequence.toNat
  same : ∀ send ∈ sends, ∀ send' ∈ sends, send.req.sequence = send'.req.sequence →
    send.req = send'.req
  once : (sends.map fun send => (send.nodeID, send.req.sequence)).Nodup
  own : ∀ send ∈ sends, send.nodeID ≠ rm.selfID ∧ send.req.sourceNode = rm.selfID

theorem counted_nil {rm : ReplicationManager} (h : rm.sequence = 0) : Counted rm [] where
  le := by simp [h]
  used i := by
    simp only [List.not_mem_nil, false_and, exists_false, h, UInt64.toNat_zero, false_iff]
    omega
  same send hs := by cases hs
  once := List.nodup_nil
  own send hs := by cases hs

section
variable {ring : Ring} {rm rm' : ReplicationManager} {sends started : List Send}

theorem Ring.WF.getSecondaries_nodup (hwf : ring.WF) (key : Key) :
    (rm.getSecondaries ring key).Nodup := by
  rw [ReplicationManager.getSecondaries, hwf.getNodes_eq]
  have hnd : (ring.order key).Nodup := distinct_nodup _ _
  exact (hnd.sublist (List.take_sublist _ _)).filter _

/-- One more request, sent to `targets`. -/
theorem Counted.snoc (h : Counted rm sends) {targets : List NodeID} {req : ReplicateRequest}
    (hne : targets ≠ []) (hnd : targets.Nodup) (hself : rm.selfID ∉ targets)
    (hseq : req.sequence = rm.sequence + 1) (hsrc : req.sourceNode = rm.selfID)
    (hlen : sends.length + 1 < 2 ^ 64) :
    Counted { rm with sequence := rm.sequence + 1 } (sends ++ targets.map fun id => ⟨id, req⟩) := by
  have hle := h.le
  have hpos := List.length_pos_iff.2 hne
  have hnext : (rm.sequence + 1).toNat = rm.sequence.toNat + 1 := by
    rw [UInt64.toNat_add]
    exact Nat.mod_eq_of_lt (by simp; omega)
  -- the new number is above all others
  have hbelow : ∀ send ∈ sends, send.req.sequence ≠ req.sequence := by
    intro send hs he
    have hused := ((h.used _).1 ⟨send, hs, rfl⟩).2
    rw [he, hseq, hnext] at hused
    omega
  have hnew : ∀ send ∈ targets.map (fun id => (⟨id, req⟩ : Send)),
      send.nodeID ∈ targets ∧ send.req = req := by
    intro send hs
    obtain ⟨id, hid, rfl⟩ := List.mem_map.1 hs
    exact ⟨hid, rfl⟩
  refine ⟨?_, fun i => ⟨?_, ?_⟩, fun send hs send' hs' he => ?_, ?_, fun send hs => ?_⟩
  · simp only [List.length_append, List.length_map, hnext]
    omega
  · rintro ⟨send, hs, rfl⟩
    rcases List.mem_append.1 hs with hs | hs
    · have hused := (h.used _).1 ⟨send, hs, rfl⟩
      simp only [hnext]
      omega
    · rw [(hnew send hs).2, hseq]
      simp only [hnext]
      omega
  · rintro ⟨h1, h2⟩
    simp only [hnext] at h2
    by_cases hi : i ≤ rm.sequence.toNat
    · obtain ⟨send, hs, he⟩ := (h.used i).2 ⟨h1, hi⟩
      exact ⟨send, List.mem_append_left _ hs, he⟩
    · obtain ⟨x, hx⟩ := List.exists_mem_of_ne_nil _ hne
      refine ⟨⟨x, req⟩, List.mem_append_right _ (List.mem_map_of_mem hx), ?_⟩
      rw [hseq, hnext]
      omega
  · rcases List.mem_append.1 hs with hs | hs <;> rcases List.mem_append.1 hs' with hs' | hs'
    · exact h.same send hs send' hs' he
    · rw [(hnew send' hs').2] at he
      exact absurd he (hbelow send hs)
    · rw [(hnew send hs).2] at he
      exact absurd he.symm (hbelow send' hs')
    · rw [(hnew send hs).2, (hnew send' hs').2]
  · rw [List.map_append, List.nodup_append, List.map_map]
    refine ⟨h.once, hnd.map fun a b hab => congrArg Prod.fst hab, ?_⟩
    rintro p hp q hq rfl
    obtain ⟨send, hs, rfl⟩ := List.mem_map.1 hp
    obtain ⟨id, -, he⟩ := List.mem_map.1 hq
    exact hbelow send hs (congrArg Prod.snd he).symm
  · rcases List.mem_append.1 hs with hs | hs
    · exact h.own send hs
    · obtain ⟨hid, hreq⟩ := hnew send hs
      rw [hreq]
      exact ⟨fun he => hself (he ▸ hid), hsrc⟩

theorem Counted.replicate (h : Counted rm sends) (hwf : ring.WF) (key : Key)
    {f : UInt64 → ReplicateRequest}
    (hf : ∀ seq, (f seq).sequence = seq ∧ (f seq).sourceNode = rm.selfID)
    (hlen : (sends ++ (rm.replicate ring key f).2).length < 2 ^ 64) :
    Counted (rm.replicate ring key f).1 (sends ++ (rm.replicate ring key f).2) := by
  cases hsec : rm.getSecondaries ring key with
  | nil =>
    simp only [ReplicationManager.replicate, hsec, List.append_nil]
    exact h
  | cons x xs =>
    have hrep : rm.replicate ring key f = ({ rm with sequence := rm.sequence + 1 },
        (x :: xs).map fun id => ⟨id, f (rm.sequence + 1)⟩) := by
      simp only [ReplicationManager.replicate, hsec]
    have hnd : (x :: xs).Nodup := hsec ▸ hwf.getSecondaries_nodup key
    have hself : rm.selfID ∉ x :: xs := by
      rw [← hsec]
      exact fun hmem => by simpa using (List.mem_filter.1 hmem).2
    rw [hrep] at hlen ⊢
    simp only [List.length_append, List.length_map, List.length_cons] at hlen
    exact h.snoc (List.cons_ne_nil x xs) hnd hself (hf _).1 (hf _).2 (by omega)

theorem Counted.numbered (h : Counted rm started) (hwf : ring.WF)
    (hnum : Numbered ring rm rm' sends) (hlen : (started ++ sends).length < 2 ^ 64) :
    Counted rm' (started ++ sends) := by
  induction hnum with
  | refl => simpa using h
  | @replicate rm' sends key f hnum hf ih =>
    rw [← List.append_assoc] at hlen ⊢
    have hlen' : (started ++ sends).length < 2 ^ 64 := by
      rw [List.length_append] at hlen
      omega
    refine (ih hlen').replicate hwf key (fun seq => ?_) hlen
    rw [hnum.selfID_eq]
    exact hf seq

end

/-! ## Runs -/

namespace Node

/-- The manager of a node, as long as no counter wraps. -/
def Counts (x : NodeID) (n : Node) : Prop :=
  ∃ rm, n.server.replicationMgr = some rm ∧ rm.selfID = x ∧
    (n.sends.length < 2 ^ 64 → Counted rm n.sends)

theorem Counts.step {env : Env} {resolve : GoString → Option UDPAddr} {x : NodeID} {n : Node}
    (h : n.Counts x) (hwf : n.server.ring.WF) (a : Act) : (n.step env resolve a).Counts x := by
  obtain ⟨rm, hrm, hself, hcount⟩ := h
  obtain ⟨conns, rm', sends, hm⟩ := step_manages env resolve hrm a
  refine ⟨rm', hm.mgr, hm.numbered.selfID_eq.trans hself, fun hlen => ?_⟩
  rw [hm.sends] at hlen ⊢
  have hlen' : n.sends.length < 2 ^ 64 := by
    rw [List.length_append] at hlen
    omega
  obtain ⟨hle, hused, hsame, honce, hown⟩ := hcount hlen'
  have hconns : Counted { rm with peerConns := conns } n.sends := ⟨hle, hused, hsame, honce, hown⟩
  exact hconns.numbered hwf hm.numbered hlen

/-- **Sequence numbers identify replicated writes.**  In every run of a node that starts fewer
    than `2^64` replication goroutines, whatever requests, messages and failures it handles: the
    numbers used are those from 1 to the counter of the manager, without a gap; two goroutines with
    the same number send the same request, to different nodes; and every request names this node as
    its source and is sent to other nodes only. -/
theorem sequence_identifies_writes (env : Env) (resolve : GoString → Option UDPAddr)
    (nodeID : NodeID) (addrs : Addrs) (inj : Option FaultInjector) (vnodeCount replicaCount : ℤ)
    (maxLoadFactor : ℚ) (acts : List Act)
    (hacts : Along (step env resolve) Enabled
      (start env nodeID addrs inj vnodeCount replicaCount maxLoadFactor) acts) :
    let n := run (step env resolve)
      (start env nodeID addrs inj vnodeCount replicaCount maxLoadFactor) acts
    n.sends.length < 2 ^ 64 →
    ∃ rm, n.server.replicationMgr = some rm ∧
      (∀ i, (∃ send ∈ n.sends, send.req.sequence.toNat = i) ↔ 1 ≤ i ∧ i ≤ rm.sequence.toNat) ∧
      (∀ send ∈ n.sends, ∀ send' ∈ n.sends, send.req.sequence = send'.req.sequence →
        send.req = send'.req) ∧
      (n.sends.map fun send => (send.nodeID, send.req.sequence)).Nodup ∧
      ∀ send ∈ n.sends, send.nodeID ≠ nodeID ∧ send.req.sourceNode = nodeID := by
  intro n hlen
  have hstart : (start env nodeID addrs inj vnodeCount replicaCount maxLoadFactor).Inv ∧
      (start env nodeID addrs inj vnodeCount replicaCount maxLoadFactor).Counts nodeID :=
    ⟨start_inv .., _, rfl, rfl, fun _ => counted_nil rfl⟩
  obtain ⟨-, rm, hrm, hself, hcount⟩ := hacts.inv (I := fun n => n.Inv ∧ n.Counts nodeID)
    (fun n a h ha => ⟨Inv.step n a h.1 ha, h.2.step h.1.ring a⟩) hstart
  obtain ⟨-, hused, hsame, honce, hown⟩ := hcount hlen
  exact ⟨rm, hrm, hused, hsame, honce, hself ▸ hown⟩

/-- Node `a` hears of `b`, and serves two writes of a key. -/
noncomputable def joinedAndWritten : Node :=
  run (step Wired.env some) (start Wired.env (ascii ['a']) ⟨[], [], []⟩ none 1 2 0)
    ([.swim (.arrive ⟨[], ⟨.ack, ascii ['b'], [], [], 0, [.report (ascii ['b']) .alive 0]⟩⟩),
      .swim .read] ++ Swim.applies.map .swim ++
    [.handle ⟨.join, ascii ['b']⟩, .resume 0 default 0, .resume 0 default 0,
      .request 0 (.set ⟨[1], [7], 0⟩), .request 0 (.set ⟨[1], [8], 0⟩)])

theorem sequence_identifies_writes_two :
    joinedAndWritten.sends.length = 2 ∧
      (joinedAndWritten.sends.map fun send => (send.nodeID, send.req.sequence)).Nodup := by
  obtain ⟨rm, -, -, -, honce, -⟩ := sequence_identifies_writes Wired.env some (ascii ['a'])
    ⟨[], [], []⟩ none 1 2 0 _ (by decide +kernel) (by decide +kernel :
      joinedAndWritten.sends.length < 2 ^ 64)
  exact ⟨by decide +kernel, honce⟩

end Node

end DistCache
