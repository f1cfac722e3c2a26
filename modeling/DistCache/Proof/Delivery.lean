/-
  RPCs are delivered at most once.

  * `requests_handled_at_most_once`: no request of a client is answered twice, and no replicated
    write is applied twice;
  * `replica_applies_number_once`: no replica applies two writes with one source and one number, as
    long as no node is restarted.
-/
import DistCache.Proof.Routing

namespace DistCache.Fleet

open Lib (run Along)

/-! ## Counting -/

/-- Taking out one element. -/
theorem filterMap_eraseIdx_perm {α β : Type*} {l : List α} {i : ℕ} {a : α} (h : l[i]? = some a)
    (g : α → Option β) : (l.filterMap g).Perm ((g a).toList ++ (l.eraseIdx i).filterMap g) := by
  obtain ⟨hi, rfl⟩ := List.getElem?_eq_some_iff.1 h
  have hperm := (List.getElem_cons_eraseIdx_perm hi).symm.filterMap g
  cases hg : g l[i] with
  | none =>
    rw [List.filterMap_cons_none hg] at hperm
    exact hperm
  | some b =>
    rw [List.filterMap_cons_some hg] at hperm
    exact hperm

theorem count_filterMap_eraseIdx_le {α β : Type*} [BEq β] (l : List α) (i : ℕ) (g : α → Option β)
    (b : β) : ((l.eraseIdx i).filterMap g).count b ≤ (l.filterMap g).count b :=
  ((List.eraseIdx_sublist l i).filterMap g).count_le b

/-- The goroutines of its source node that have not sent `send` yet. -/
def waiting (f : Fleet) (send : Send) : ℕ :=
  (f.node send.req.sourceNode).elim 0 fun n => n.sends.count send

/-- The replicated writes on their way. -/
def inFlight (f : Fleet) (send : Send) : ℕ := (f.rpcs.filterMap Envelope.send).count send

section
variable {f f' : Fleet} {x : NodeID} {n n' : Node}

theorem waiting_of_node_eq (h : f'.node = f.node) (send : Send) : f'.waiting send = f.waiting send := by
  rw [waiting, h]
  rfl

/-- Only node `x` changes. -/
theorem waiting_update {o : Option Node} (hf' : f'.node = Function.update f.node x o) (send : Send) :
    f'.waiting send =
      if send.req.sourceNode = x then o.elim 0 fun n => n.sends.count send else f.waiting send := by
  rw [waiting, hf']
  split_ifs with hx
  · rw [hx, Function.update_self]
  · rw [Function.update_of_ne hx, waiting]

/-- Node `x` ends, or is started again. -/
theorem waiting_reset {o : Option Node} (hf' : f'.node = Function.update f.node x o)
    (ho : ∀ n ∈ o, n.sends = []) (send : Send) : f'.waiting send ≤ f.waiting send := by
  rw [waiting_update hf']
  split_ifs
  · cases o with
    | none => exact Nat.zero_le _
    | some n => simp [ho n rfl]
  · exact le_rfl

/-- Node `x` starts the goroutines `more`. -/
theorem waiting_started (hn : f.node x = some n) (hf' : f'.node = Function.update f.node x (some n'))
    {more : List Send} (hs : n'.sends = n.sends ++ more)
    (hown : ∀ send ∈ more, send.req.sourceNode = x) (send : Send) :
    f'.waiting send = f.waiting send + more.count send := by
  rw [waiting_update hf']
  split_ifs with hx
  · rw [waiting, hx, hn, Option.elim_some, Option.elim_some, hs, List.count_append]
  · rw [List.count_eq_zero.2 fun hmem => hx (hown send hmem), Nat.add_zero]

theorem startedIn_eq (hn : f.node x = some n) (hf' : f'.node = Function.update f.node x (some n'))
    {more : List Send} (hs : n'.sends = n.sends ++ more) (a : NodeAct) :
    startedIn f f' (.node x a) = more := by
  simp only [startedIn, hn, hf', Function.update_self, hs, List.drop_left]

end

section
variable {env : NodeID → Env} {resolve : GoString → Option UDPAddr} {addrs : NodeID → Addrs}

/-- What a transition of a running node starts. -/
theorem Vouched.starts (env : NodeID → Env) (resolve : GoString → Option UDPAddr)
    {B : Finset NodeID} {f : Fleet} (h : f.Vouched addrs B) {x : NodeID} {n : Node}
    (hn : f.node x = some n) (a : Node.Act) :
    ∃ more, (n.step (env x) resolve a).sends = n.sends ++ more ∧
      ∀ send ∈ more, send.req.sourceNode = x := by
  have hv := h.nodes x n hn
  obtain ⟨rm, hrm, hself, -⟩ := hv.mgr
  obtain ⟨conns, rm', more, hm⟩ := Node.step_manages (env x) resolve hrm a
  refine ⟨more, hm.sends, fun send hs => ?_⟩
  exact (hm.numbered.target hv.inv.ring send hs).2.2.trans hself

theorem applies_serve {f : Fleet} {x : NodeID} {n : Node} {i : ℕ} {rpc : Envelope}
    (hn : f.node x = some n) (hrpc : f.rpcs[i]? = some rpc) (now : Time) :
    f.applies (.node x (.serve i now)) = rpc.send.map (x, ·) := by
  simp [applies, hn, hrpc]

theorem send_of_request {rpc : Envelope} {req : Request} (h : rpc.call = .request req) :
    rpc.send = none := by
  unfold Envelope.send
  split
  · rename_i hcall
    rw [h] at hcall
    cases hcall
  · rfl

/-- A call to a peer is sent once, or not at all. -/
theorem invokePeer_cases (cs : CacheServer) (y : NodeID) (call : ServerCall) :
    cs.invokePeer y call = none ∨ ∃ addr, cs.invokePeer y call = some ⟨addr, some y, call⟩ := by
  cases hp : cs.invokePeer y call with
  | none => exact Or.inl rfl
  | some rpc =>
    obtain ⟨rm, -, hconn⟩ := Option.bind_eq_some_iff.1 hp
    obtain ⟨addr, -, rfl⟩ := Option.map_eq_some_iff.1 hconn
    exact Or.inr ⟨addr, rfl⟩

/-- A transition that only takes RPCs away, and lets node `x` start goroutines. -/
theorem count_started {f f' : Fleet} {x : NodeID} {n n' : Node} {more : List Send}
    (hn : f.node x = some n) (hf' : f'.node = Function.update f.node x (some n'))
    (hs : n'.sends = n.sends ++ more) (hown : ∀ send ∈ more, send.req.sourceNode = x)
    {send : Send} {k : ℕ} (hfly : f'.inFlight send + k ≤ f.inFlight send) (a : NodeAct) :
    f'.waiting send + f'.inFlight send + k ≤
      f.waiting send + f.inFlight send + (startedIn f f' (.node x a)).count send := by
  rw [waiting_started hn hf' hs hown, startedIn_eq hn hf' hs]
  omega

/-- A transition that only takes RPCs away. -/
theorem count_of_node_eq {f f' : Fleet} (hnode : f'.node = f.node) {send : Send} {k : ℕ}
    (hfly : f'.inFlight send + k ≤ f.inFlight send) (m : ℕ) :
    f'.waiting send + f'.inFlight send + k ≤ f.waiting send + f.inFlight send + m := by
  rw [waiting_of_node_eq hnode]
  omega

/-- The goroutine `send'` is in its RPC, or found no connection. -/
theorem inFlight_sendReplicate_le (f : Fleet) (x : NodeID) (n : Node) (send' send : Send) :
    (f.sendReplicate x n send').inFlight send ≤
      f.inFlight send + if send = send' then 1 else 0 := by
  show ((f.rpcs ++ _).filterMap Envelope.send).count send ≤ _
  rw [List.filterMap_append, List.count_append]
  refine Nat.add_le_add_left ?_ _
  rcases invokePeer_cases n.server send'.nodeID (.replicate send'.req) with hp | ⟨addr, hp⟩
  · rw [hp]
    exact Nat.zero_le _
  · rw [hp]
    show [send'].count send ≤ _
    rw [List.count_singleton]
    by_cases he : send = send'
    · simp [he]
    · simp [he, Ne.symm he]

/-- It does not wait any more. -/
theorem waiting_sendReplicate_le {f : Fleet} {x : NodeID} {n : Node} {send' : Send}
    (hn : f.node x = some n) (hmem : send' ∈ n.sends) (hsrc : send'.req.sourceNode = x)
    (send : Send) :
    (f.sendReplicate x n send').waiting send + (if send = send' then 1 else 0) ≤
      f.waiting send := by
  rw [waiting_update (f := f) (x := x) rfl]
  split_ifs with hx he he
  · subst he
    rw [waiting, hx, hn, Option.elim_some, Option.elim_some, List.count_erase_self]
    have := List.count_pos_iff.2 hmem
    omega
  · rw [waiting, hx, hn, Option.elim_some, Option.elim_some, List.count_erase_of_ne he]
    exact le_rfl
  · exact absurd (he ▸ hsrc) hx
  · exact le_rfl

/-- **One transition**: a goroutine or an RPC that is used up is gone. -/
theorem Vouched.count_step (env : NodeID → Env) (resolve : GoString → Option UDPAddr)
    {B : Finset NodeID} {f : Fleet} {a : Act} (h : f.Vouched addrs B)
    (hena : f.Enabled addrs a) (send : Send) :
    (f.step env resolve addrs a).waiting send + (f.step env resolve addrs a).inFlight send +
        ((f.applies a).toList.map Prod.snd).count send ≤
      f.waiting send + f.inFlight send +
        (startedIn f (f.step env resolve addrs a) a).count send := by
  have hlose : ∀ i, ((f.rpcs.eraseIdx i).filterMap Envelope.send).count send ≤ f.inFlight send :=
    fun i => count_filterMap_eraseIdx_le f.rpcs i Envelope.send send
  have heff := step_effect env resolve addrs f a
  generalize f.step env resolve addrs a = f' at heff ⊢
  cases heff with
  | same a hidle =>
    have hnone : f.applies a = none := by
      unfold applies
      split
      · rename_i x i now
        rcases hidle x i now rfl with hx | hi
        · simp [hx]
        · simp [hi]
      · rfl
    simp [hnone]
  | issue addr req =>
    refine count_of_node_eq (by rfl) (le_of_eq ?_) _
    show ((f.rpcs ++ [(⟨addr, none, .request req⟩ : Envelope)]).filterMap Envelope.send).count send = _
    rw [List.filterMap_append]
    simp [inFlight, List.filterMap_cons, Envelope.send]
  | lose i =>
    refine count_of_node_eq (by rfl) ?_ _
    exact hlose i
  | @boot x inj vnodeCount replicaCount maxLoadFactor hx =>
    have hwait : waiting { f.putNode x (.start (env x) x (addrs x) inj vnodeCount replicaCount
        maxLoadFactor) with booted := insert x f.booted } send ≤ f.waiting send := by
      refine waiting_reset (x := x) rfl (fun n hn => ?_) send
      rw [← Option.some.inj hn]
      rfl
    exact Nat.le_add_right_of_le (Nat.add_le_add_right hwait _)
  | @forward x n i now rpc req primary hn hrpc hreq hf =>
    rw [applies_serve hn hrpc, send_of_request hreq]
    refine count_of_node_eq (by rfl) ?_ _
    refine le_trans (le_of_eq ?_) (hlose i)
    show ((f.rpcs.eraseIdx i ++ _).filterMap Envelope.send).count send = _
    rw [List.filterMap_append, List.count_append]
    rcases invokePeer_cases n.server primary (.request req) with hp | ⟨addr, hp⟩ <;> rw [hp] <;> rfl
  | @answer x n i now rpc req resp sends hn hrpc hreq hh =>
    obtain ⟨more, hs, hown⟩ := h.starts env resolve hn (.request now req)
    rw [applies_serve hn hrpc, send_of_request hreq]
    exact count_started hn rfl hs hown (hlose i) _
  | @replicate x n i now rpc req hn hrpc hreq =>
    obtain ⟨more, hs, hown⟩ := h.starts env resolve hn (.replicate now req)
    rw [applies_serve hn hrpc]
    refine count_started hn rfl hs hown (le_of_eq ?_) _
    have hperm := (filterMap_eraseIdx_perm hrpc Envelope.send).count_eq send
    rw [List.count_append] at hperm
    show ((f.rpcs.eraseIdx i).filterMap Envelope.send).count send + _ = f.inFlight send
    rw [inFlight, hperm, Nat.add_comm]
    cases rpc.send <;> rfl
  | @send x n send' hn =>
    obtain ⟨n', hn', hmem⟩ := hena
    obtain rfl : n = n' := Option.some.inj (hn.symm.trans hn')
    have hsrc := ((h.nodes x n hn).sends send' hmem).2.2
    have hfly := inFlight_sendReplicate_le f x n send' send
    have hwait := waiting_sendReplicate_le hn hmem hsrc send
    show _ + _ + 0 ≤ _
    omega
  | @gossip x n a hn =>
    obtain ⟨more, hs, hown⟩ := h.starts env resolve hn (.swim a)
    exact count_started hn rfl hs hown le_rfl _
  | @handle x n event hn =>
    obtain ⟨more, hs, hown⟩ := h.starts env resolve hn (.handle event)
    exact count_started hn rfl hs hown le_rfl _
  | @resume x n i ord now hn =>
    obtain ⟨more, hs, hown⟩ := h.starts env resolve hn (.resume i ord now)
    exact count_started hn rfl hs hown le_rfl _
  | @sweep x n index passes store hn hs =>
    refine count_started hn rfl ?_ (fun _ (hmem : _ ∈ []) => by cases hmem) le_rfl _
    exact (List.append_nil _).symm
  | @decay x n hn =>
    refine count_started hn rfl ?_ (fun _ (hmem : _ ∈ []) => by cases hmem) le_rfl _
    exact (List.append_nil _).symm
  | @crash x n hn =>
    have hwait : waiting { f with
        node := Function.update f.node x none
        gone := f.gone ++ n.swim.sent.map Datagram.msg } send ≤ f.waiting send :=
      waiting_reset (x := x) rfl (fun n hn => by cases hn) send
    exact Nat.le_add_right_of_le (Nat.add_le_add_right hwait _)

/-- The requests of clients on their way, and those answered. -/
def pending (f : Fleet) (req : Request) : ℕ :=
  (f.rpcs.filterMap Envelope.request).count req + (f.answers.map Prod.fst).count req

theorem pending_step {f : Fleet} (a : Act) (req : Request)
    (h : f.pending req ≤ f.issued.count req) :
    (f.step env resolve addrs a).pending req ≤ (f.step env resolve addrs a).issued.count req := by
  have hlose : ∀ i, ((f.rpcs.eraseIdx i).filterMap Envelope.request).count req ≤
      (f.rpcs.filterMap Envelope.request).count req :=
    fun i => count_filterMap_eraseIdx_le f.rpcs i Envelope.request req
  -- an RPC that is received carries its request away
  have hserve : ∀ {i : ℕ} {rpc : Envelope} {req' : Request}, f.rpcs[i]? = some rpc →
      rpc.call = .request req' → (f.rpcs.filterMap Envelope.request).count req =
        [req'].count req + ((f.rpcs.eraseIdx i).filterMap Envelope.request).count req := by
    intro i rpc req' hrpc hcall
    have hperm := (filterMap_eraseIdx_perm hrpc Envelope.request).count_eq req
    rw [List.count_append] at hperm
    have hreq : rpc.request = some req' := by
      unfold Envelope.request
      rw [hcall]
    rw [hperm, hreq]
    rfl
  have heff := step_effect env resolve addrs f a
  generalize f.step env resolve addrs a = f' at heff ⊢
  cases heff with
  | issue addr req' =>
    show ((f.rpcs ++ [(⟨addr, none, .request req'⟩ : Envelope)]).filterMap Envelope.request).count
      req + (f.answers.map Prod.fst).count req ≤ (f.issued ++ [req']).count req
    rw [List.filterMap_append, List.count_append, List.count_append]
    show _ + [req'].count req + _ ≤ _
    unfold pending at h
    omega
  | lose i => exact (Nat.add_le_add_right (hlose i) _).trans h
  | @forward x n i now rpc req' primary hn hrpc hreq hf =>
    refine le_trans (Nat.add_le_add_right ?_ _) h
    show ((f.rpcs.eraseIdx i ++ _).filterMap Envelope.request).count req ≤ _
    rw [hserve hrpc hreq, List.filterMap_append, List.count_append, Nat.add_comm]
    refine Nat.add_le_add_right ?_ _
    rcases invokePeer_cases n.server primary (.request req') with hp | ⟨addr, hp⟩
    · rw [hp]
      exact Nat.zero_le _
    · rw [hp]
      exact le_rfl
  | @answer x n i now rpc req' resp sends hn hrpc hreq hh =>
    refine le_trans (le_of_eq ?_) h
    show ((f.rpcs.eraseIdx i).filterMap Envelope.request).count req +
      ((f.answers ++ [(req', resp)]).map Prod.fst).count req = f.pending req
    rw [pending, hserve hrpc hreq, List.map_append, List.count_append]
    show _ + (_ + [req'].count req) = _
    omega
  | @replicate x n i => exact (Nat.add_le_add_right (hlose i) _).trans h
  | @send x n send hn =>
    refine le_trans (Nat.add_le_add_right (le_of_eq ?_) _) h
    show ((f.rpcs ++ _).filterMap Envelope.request).count req = _
    rw [List.filterMap_append, List.count_append]
    rcases invokePeer_cases n.server send.nodeID (.replicate send.req) with hp | ⟨addr, hp⟩ <;>
      rw [hp] <;> rfl
  | _ => exact h

/-! ## Runs -/

namespace Logged

/-- The books of a run: nothing is handled more often than it was sent. -/
structure Conserved (addrs : NodeID → Addrs) (l : Logged) : Prop where
  vouched : ∀ B, l.fleet.booted ⊆ B → l.fleet.Vouched addrs B
  requests : ∀ req, l.fleet.pending req ≤ l.fleet.issued.count req
  sends : ∀ send, l.fleet.waiting send + l.fleet.inFlight send + (l.applied.map Prod.snd).count send ≤
    l.started.count send
  receivers : ∀ e ∈ l.applied, e.1 ∈ l.fleet.booted ∧ e.2.nodeID ∈ l.fleet.booted ∧
    (addrs e.1).grpcAddr = (addrs e.2.nodeID).grpcAddr

theorem conserved_empty : Logged.empty.Conserved addrs where
  vouched B _ := vouched_empty
  requests req := le_rfl
  sends send := le_rfl
  receivers e he := by cases he

/-- A write is applied at the address of its target. -/
theorem applies_receiver {f : Fleet} (hv : f.Vouched addrs f.booted) {a : Act}
    (hena : f.Enabled addrs a) {e : NodeID × Send} (he : f.applies a = some e) :
    e.1 ∈ f.booted ∧ e.2.nodeID ∈ f.booted ∧
      (addrs e.1).grpcAddr = (addrs e.2.nodeID).grpcAddr := by
  unfold applies at he
  split at he
  · rename_i x i now
    split_ifs at he with hx
    obtain ⟨n, hn⟩ := Option.isSome_iff_exists.1 hx
    obtain ⟨rpc, hrpc, haddr⟩ := hena
    rw [hrpc] at he
    obtain ⟨send, hsend, rfl⟩ := Option.map_eq_some_iff.1 he
    have htarget : rpc.target = some send.nodeID := by
      unfold Envelope.send at hsend
      simp only [Option.bind_some] at hsend
      split at hsend
      · rename_i nodeID req htarget hcall
        cases hsend
        exact htarget
      · cases hsend
    obtain ⟨hmem, hat⟩ := hv.rpcs rpc (List.mem_of_getElem? hrpc) _ htarget
    have hself := (hv.nodes x n hn).swim.m.self
    rw [(hv.nodes x n hn).selfID] at hself
    exact ⟨hself, hmem, haddr.symm.trans hat⟩
  · cases he

theorem Conserved.step {l : Logged} {a : Act} (h : l.Conserved addrs)
    (hena : l.fleet.Enabled addrs a) : (l.step env resolve addrs a).Conserved addrs where
  vouched B hB := (h.vouched B ((booted_step l.fleet a).trans hB)).step hena hB
  requests req := pending_step a req (h.requests req)
  sends send := by
    have hstep := (h.vouched _ (Finset.Subset.refl _)).count_step env resolve hena send
    have hold := h.sends send
    simp only [Logged.step, List.map_append, List.count_append]
    omega
  receivers e he := by
    have hmono : l.fleet.booted ⊆ (l.fleet.step env resolve addrs a).booted := booted_step l.fleet a
    rcases List.mem_append.1 he with he | he
    · obtain ⟨h1, h2, h3⟩ := h.receivers e he
      exact ⟨hmono h1, hmono h2, h3⟩
    · obtain ⟨h1, h2, h3⟩ := applies_receiver (h.vouched _ (Finset.Subset.refl _)) hena
        (Option.mem_toList.1 he)
      exact ⟨hmono h1, hmono h2, h3⟩

/-- **RPCs are handled at most once.**  In every run of a fleet, with RPCs lost and processes
    crashing and restarting at any time: a request is answered at most as often as clients sent it,
    however often it is forwarded; and a replicated write is applied at most as often as goroutines
    were started for it. -/
theorem requests_handled_at_most_once (acts : List Act)
    (h : Along (Logged.step env resolve addrs) (fun l => l.fleet.Enabled addrs) .empty acts) :
    let l := run (Logged.step env resolve addrs) .empty acts
    (l.fleet.answers.map Prod.fst).Subperm l.fleet.issued ∧
      (l.applied.map Prod.snd).Subperm l.started := by
  intro l
  have hc : l.Conserved addrs := h.inv (fun _ _ hl ha => hl.step ha) conserved_empty
  refine ⟨List.subperm_ext_iff.2 fun req _ => ?_, List.subperm_ext_iff.2 fun send _ => ?_⟩
  · have := hc.requests req
    unfold pending at this
    omega
  · have := hc.sends send
    omega

/-! ## Numbers -/

/-- The goroutines that node `x` started. -/
def startedBy (l : Logged) (x : NodeID) : List Send :=
  l.started.filter fun send => send.req.sourceNode = x

/-- The numbers of the goroutines started, as long as no counter wraps. -/
structure Numbers (l : Logged) : Prop where
  fresh : ∀ x ∉ l.fleet.booted, l.startedBy x = []
  running : ∀ x n, l.fleet.node x = some n → x ∈ l.fleet.booted ∧
    ∃ rm, n.server.replicationMgr = some rm ∧ rm.selfID = x ∧
      (l.started.length < 2 ^ 64 → Counted rm (l.startedBy x))
  once : l.started.length < 2 ^ 64 →
    ∀ x, ((l.startedBy x).map fun send => (send.nodeID, send.req.sequence)).Nodup

theorem numbers_empty : Logged.empty.Numbers where
  fresh x _ := rfl
  running x n h := by cases h
  once _ x := List.nodup_nil

theorem length_startedBy_le (l : Logged) (x : NodeID) :
    (l.startedBy x).length ≤ l.started.length :=
  List.length_filter_le _ _

/-- A transition of node `x` that starts `more`. -/
theorem Numbers.started {l l' : Logged} (h : l.Numbers) {x : NodeID} {n n' : Node}
    (hn : l.fleet.node x = some n) (hf' : l'.fleet.node = Function.update l.fleet.node x (some n'))
    (hb : l'.fleet.booted = l.fleet.booted) {more : List Send}
    (hl : l'.started = l.started ++ more) (hown : ∀ send ∈ more, send.req.sourceNode = x)
    (hmgr : ∀ rm, n.server.replicationMgr = some rm → rm.selfID = x → ∃ rm',
      n'.server.replicationMgr = some rm' ∧ rm'.selfID = x ∧
        ((l.startedBy x ++ more).length < 2 ^ 64 → Counted rm (l.startedBy x) →
          Counted rm' (l.startedBy x ++ more))) :
    l'.Numbers := by
  have hx : l'.startedBy x = l.startedBy x ++ more := by
    rw [startedBy, hl, List.filter_append, startedBy]
    congr 1
    exact List.filter_eq_self.2 fun send hs => by simpa using hown send hs
  have hne : ∀ y, y ≠ x → l'.startedBy y = l.startedBy y := by
    intro y hy
    rw [startedBy, hl, List.filter_append, startedBy]
    have hnone : (more.filter fun send => send.req.sourceNode = y) = [] := by
      refine List.filter_eq_nil_iff.2 fun send hs => ?_
      simp only [decide_eq_true_eq]
      exact fun he => hy (he.symm.trans (hown send hs))
    rw [hnone, List.append_nil]
  have hlen : l'.started.length < 2 ^ 64 → l.started.length < 2 ^ 64 := by
    intro hlt
    rw [hl, List.length_append] at hlt
    omega
  obtain ⟨hbooted, rm, hrm, hself, hcount⟩ := h.running x n hn
  obtain ⟨rm', hrm', hself', hcount'⟩ := hmgr rm hrm hself
  have hcounted : l'.started.length < 2 ^ 64 → Counted rm' (l'.startedBy x) := by
    intro hlt
    have hle := l'.length_startedBy_le x
    rw [hx] at hle ⊢
    exact hcount' (by omega) (hcount (hlen hlt))
  refine ⟨fun y hy => ?_, fun y m hm => ?_, fun hlt y => ?_⟩
  · rw [hb] at hy
    rw [hne y fun he => hy (he ▸ hbooted)]
    exact h.fresh y hy
  · rw [hb]
    by_cases hy : y = x
    · subst hy
      rw [hf', Function.update_self] at hm
      cases hm
      exact ⟨hbooted, rm', hrm', hself', hcounted⟩
    · rw [hf', Function.update_of_ne hy] at hm
      obtain ⟨hyb, rmy, hrmy, hselfy, hcounty⟩ := h.running y m hm
      exact ⟨hyb, rmy, hrmy, hselfy, fun hlt => hne y hy ▸ hcounty (hlen hlt)⟩
  · by_cases hy : y = x
    · subst hy
      exact (hcounted hlt).once
    · rw [hne y hy]
      exact h.once (hlen hlt) y

/-- Transitions that start nothing, on the nodes that are running. -/
theorem Numbers.congr {l l' : Logged} (h : l.Numbers) (hs : l'.started = l.started)
    (hb : l'.fleet.booted = l.fleet.booted)
    (hn : ∀ x n', l'.fleet.node x = some n' → ∃ n, l.fleet.node x = some n ∧
      n'.server.replicationMgr = n.server.replicationMgr) : l'.Numbers := by
  have hby : ∀ x, l'.startedBy x = l.startedBy x := fun x => by rw [startedBy, hs, startedBy]
  refine ⟨fun x hx => ?_, fun x n' hn' => ?_, fun hlt x => ?_⟩
  · rw [hby]
    exact h.fresh x (hb ▸ hx)
  · obtain ⟨n, hx, hmgr⟩ := hn x n' hn'
    obtain ⟨hmem, rm, hrm, hself, hcount⟩ := h.running x n hx
    rw [hby, hs, hb]
    exact ⟨hmem, rm, hmgr.trans hrm, hself, hcount⟩
  · rw [hby]
    exact h.once (hs ▸ hlt) x

theorem startedIn_of_node_eq {f f' : Fleet} (h : f'.node = f.node) (a : Act) :
    startedIn f f' a = [] := by
  unfold startedIn
  split
  · rw [h]
    split
    · rename_i n n' hn hn'
      obtain rfl : n = n' := Option.some.inj (hn.symm.trans hn')
      exact List.drop_length
    · rfl
  · rfl

theorem startedIn_of_length_le {f f' : Fleet} {x : NodeID} {n n' : Node} (hn : f.node x = some n)
    (hf' : f'.node = Function.update f.node x (some n')) (hs : n'.sends.length ≤ n.sends.length)
    (a : NodeAct) : startedIn f f' (.node x a) = [] := by
  simp only [startedIn, hn, hf', Function.update_self]
  exact List.drop_eq_nil_of_le hs

/-- The transitions of `Node.step`. -/
theorem Numbers.node {l l' : Logged} (h : l.Numbers) (hv : l.fleet.Vouched addrs l.fleet.booted)
    {x : NodeID} {n : Node} (hn : l.fleet.node x = some n) {a : Node.Act} {b : NodeAct}
    (hf' : l'.fleet.node = Function.update l.fleet.node x (some (n.step (env x) resolve a)))
    (hb : l'.fleet.booted = l.fleet.booted)
    (hl : l'.started = l.started ++ startedIn l.fleet l'.fleet (.node x b)) : l'.Numbers := by
  have hvn := hv.nodes x n hn
  obtain ⟨rm, hrm, hself, -⟩ := hvn.mgr
  obtain ⟨conns, rm', more, hm⟩ := Node.step_manages (env x) resolve hrm a
  have hwf := hvn.inv.ring
  rw [startedIn_eq hn hf' hm.sends] at hl
  refine h.started hn hf' hb hl (fun send hs => ?_) fun rm₁ hrm₁ _ => ?_
  · exact (hm.numbered.target hwf send hs).2.2.trans hself
  · obtain rfl : rm = rm₁ := Option.some.inj (hrm.symm.trans hrm₁)
    refine ⟨rm', hm.mgr, hm.numbered.selfID_eq.trans hself, fun hlen hcount => ?_⟩
    obtain ⟨hle, hused, hsame, honce, hown⟩ := hcount
    have hconns : Counted { rm with peerConns := conns } (l.startedBy x) :=
      ⟨hle, hused, hsame, honce, hown⟩
    exact hconns.numbered hwf hm.numbered hlen

theorem Numbers.step {l : Logged} {a : Act} (h : l.Numbers)
    (hv : l.fleet.Vouched addrs l.fleet.booted) (hboot : l.fleet.FirstBoot a) :
    (l.step env resolve addrs a).Numbers := by
  have heff := step_effect env resolve addrs l.fleet a
  unfold Logged.step
  dsimp only
  generalize l.fleet.step env resolve addrs a = f' at heff ⊢
  generalize l.applied ++ (l.fleet.applies a).toList = applied
  -- transitions after which every node has the manager it had
  have hsame : startedIn l.fleet f' a = [] → f'.booted = l.fleet.booted →
      (∀ x n', f'.node x = some n' → ∃ n, l.fleet.node x = some n ∧
        n'.server.replicationMgr = n.server.replicationMgr) →
      Numbers ⟨f', l.started ++ startedIn l.fleet f' a, applied⟩ :=
    fun hs hb hn => h.congr (by rw [hs, List.append_nil]) hb hn
  have hput : ∀ {x : NodeID} {n n' : Node}, l.fleet.node x = some n →
      n'.server.replicationMgr = n.server.replicationMgr → ∀ y m,
        (l.fleet.putNode x n').node y = some m → ∃ k, l.fleet.node y = some k ∧
          m.server.replicationMgr = k.server.replicationMgr := by
    intro x n n' hn hmgr y m hm
    rcases node_putNode hm with ⟨rfl, rfl⟩ | hm
    · exact ⟨n, hn, hmgr⟩
    · exact ⟨m, hm, rfl⟩
  cases heff with
  | same a => exact hsame (startedIn_of_node_eq rfl a) rfl fun x n hn => ⟨n, hn, rfl⟩
  | issue addr req => exact hsame rfl rfl fun x n hn => ⟨n, hn, rfl⟩
  | lose i => exact hsame rfl rfl fun x n hn => ⟨n, hn, rfl⟩
  | @boot x inj vnodeCount replicaCount maxLoadFactor hx =>
    -- the node has started nothing, and its counter is zero
    have hnew : l.startedBy x = [] := h.fresh x hboot
    change Numbers ⟨_, l.started ++ [], applied⟩
    rw [List.append_nil]
    refine ⟨fun y hy => ?_, fun y m hm => ?_, h.once⟩
    · exact h.fresh y fun hmem => hy (Finset.mem_insert_of_mem hmem)
    · rcases node_putNode hm with ⟨rfl, rfl⟩ | hm
      · refine ⟨Finset.mem_insert_self _ _, _, rfl, rfl, fun _ => ?_⟩
        show Counted _ (l.startedBy y)
        rw [hnew]
        exact counted_nil rfl
      · obtain ⟨hmem, hrm⟩ := h.running y m hm
        exact ⟨Finset.mem_insert_of_mem hmem, hrm⟩
  | @forward x n i now rpc req primary hn hrpc hreq hf =>
    exact hsame (startedIn_of_node_eq (by rfl) _) rfl fun y m hm => ⟨m, hm, rfl⟩
  | @answer x n i now rpc req resp sends hn hrpc hreq hh =>
    exact h.node (a := .request now req) (b := .serve i now) hv hn rfl rfl rfl
  | @replicate x n i now rpc req hn hrpc hreq =>
    exact h.node (a := .replicate now req) (b := .serve i now) hv hn rfl rfl rfl
  | @send x n send' hn =>
    refine hsame ?_ rfl fun y m hm => ?_
    · exact startedIn_of_length_le hn (by rfl) List.length_erase_le _
    · exact hput hn (rfl : ({ n with sends := n.sends.erase send' } : Node).server.replicationMgr = _)
        y m hm
  | @gossip x n a hn => exact h.node (a := .swim a) (b := .gossip a) hv hn rfl rfl rfl
  | @handle x n event hn =>
    exact h.node (a := .handle event) (b := .handle event) hv hn rfl rfl rfl
  | @resume x n i ord now hn =>
    exact h.node (a := .resume i ord now) (b := .resume i ord now) hv hn rfl rfl rfl
  | @sweep x n index passes store hn hs =>
    refine hsame ?_ rfl (hput hn rfl)
    exact startedIn_of_length_le hn (by rfl) (by rfl) _
  | @decay x n hn =>
    refine hsame ?_ rfl (hput hn rfl)
    exact startedIn_of_length_le hn (by rfl) (by rfl) _
  | @crash x n hn =>
    refine hsame ?_ rfl fun y m hm => ?_
    · simp [startedIn, hn]
    · by_cases hy : y = x
      · simp [hy] at hm
      · exact ⟨m, by simpa [Function.update_of_ne hy] using hm, rfl⟩

/-- The numbers of all nodes together. -/
theorem Numbers.started_nodup {l : Logged} (h : l.Numbers) (hlen : l.started.length < 2 ^ 64) :
    (l.started.map fun send => (send.nodeID, send.req.sourceNode, send.req.sequence)).Nodup := by
  have hpair : ∀ x, l.started.Pairwise fun a b => a.req.sourceNode = x → b.req.sourceNode = x →
      (a.nodeID, a.req.sequence) ≠ (b.nodeID, b.req.sequence) := by
    intro x
    have honce := List.pairwise_map.1 (h.once hlen x)
    rw [startedBy, List.pairwise_filter] at honce
    exact honce.imp fun hab ha hb => hab (by simpa using ha) (by simpa using hb)
  refine List.pairwise_map.2 (List.pairwise_iff_getElem.2 fun i j hi hj hij he => ?_)
  obtain ⟨hid, hsrc, hseq⟩ : _ ∧ _ ∧ _ := by simpa using he
  exact List.pairwise_iff_getElem.1 (hpair _) i j hi hj hij rfl hsrc.symm (by rw [hid, hseq])

/-- **A replica applies each number of a source once.**  In every run of a fleet in which no process
    is started twice, the nodes started have gRPC addresses of their own, and fewer than `2^64`
    replication goroutines are started: a replicated write is applied by the node it was sent to,
    and no node applies two writes with the same source and sequence number. -/
theorem replica_applies_number_once (acts : List Act)
    (h : Along (Logged.step env resolve addrs)
      (fun l a => l.fleet.Enabled addrs a ∧ l.fleet.FirstBoot a) .empty acts) :
    let l := run (Logged.step env resolve addrs) .empty acts
    (∀ x ∈ l.fleet.booted, ∀ y ∈ l.fleet.booted, (addrs x).grpcAddr = (addrs y).grpcAddr → x = y) →
    l.started.length < 2 ^ 64 →
    (∀ e ∈ l.applied, e.2.nodeID = e.1) ∧
      (l.applied.map fun e => (e.1, e.2.req.sourceNode, e.2.req.sequence)).Nodup := by
  intro l haddrs hlen
  obtain ⟨hc, hnum⟩ : l.Conserved addrs ∧ l.Numbers :=
    h.inv (I := fun l => l.Conserved addrs ∧ l.Numbers)
      (fun l a hl ha => ⟨hl.1.step ha.1, hl.2.step (hl.1.vouched _ (Finset.Subset.refl _)) ha.2⟩)
      ⟨conserved_empty, numbers_empty⟩
  have hto : ∀ e ∈ l.applied, e.2.nodeID = e.1 := by
    intro e he
    obtain ⟨h1, h2, h3⟩ := hc.receivers e he
    exact (haddrs e.1 h1 e.2.nodeID h2 h3).symm
  have hsub : (l.applied.map Prod.snd).Subperm l.started := by
    refine List.subperm_ext_iff.2 fun send _ => ?_
    have := hc.sends send
    omega
  have hkeys : (l.applied.map fun e => (e.1, e.2.req.sourceNode, e.2.req.sequence)) =
      (l.applied.map Prod.snd).map fun send =>
        (send.nodeID, send.req.sourceNode, send.req.sequence) := by
    rw [List.map_map]
    exact List.map_congr_left fun e he => by simp [hto e he]
  refine ⟨hto, ?_⟩
  rw [hkeys]
  obtain ⟨sends, hperm, hsublist⟩ := hsub
  exact (hperm.map _).nodup_iff.1 ((hnum.started_nodup hlen).sublist (hsublist.map _))

/-- The log decides nothing. -/
theorem along_fleet {C : Fleet → Act → Prop} {l : Logged} {acts : List Act}
    (h : Along (Fleet.step env resolve addrs) C l.fleet acts) :
    Along (Logged.step env resolve addrs) (fun l => C l.fleet) l acts := by
  induction acts generalizing l with
  | nil => trivial
  | cons a acts ih => exact ⟨h.1, ih h.2⟩

end Logged

end

namespace Logged

/-- Node `a` writes, and `b` applies the replicated write. -/
noncomputable def abApply : List Act := abJoin ++ abWrite ++ [.node (ascii ['b']) (.serve 0 0)]

theorem abApply_along :
    Along (Fleet.step (fun _ => Wired.env) some abAddrs) (Enabled abAddrs) .empty abApply :=
  Lib.along_append.2 ⟨abFleet_along, ⟨_, rfl, by decide +kernel⟩, trivial⟩

noncomputable def abLog : Logged :=
  run (Logged.step (fun _ => Wired.env) some abAddrs) .empty abApply

theorem requests_handled_at_most_once_ab :
    abLog.applied = [(ascii ['b'], abSend)] ∧ abLog.fleet.answers.length = 1 ∧
      (abLog.applied.map Prod.snd).Subperm abLog.started :=
  ⟨by decide +kernel, by decide +kernel,
    (requests_handled_at_most_once abApply (along_fleet abApply_along)).2⟩

theorem replica_applies_number_once_ab :
    abLog.applied = [(ascii ['b'], abSend)] ∧
      (abLog.applied.map fun e => (e.1, e.2.req.sourceNode, e.2.req.sequence)).Nodup := by
  have hboot : Along (Fleet.step (fun _ => Wired.env) some abAddrs) FirstBoot .empty abApply := by
    decide +kernel
  refine ⟨by decide +kernel, ?_⟩
  exact (replica_applies_number_once abApply
    (along_fleet (C := fun f a => f.Enabled abAddrs a ∧ f.FirstBoot a) (abApply_along.and hboot))
    (by decide +kernel) (by decide +kernel : abLog.started.length < 2 ^ 64)).2

end Logged

end DistCache.Fleet
