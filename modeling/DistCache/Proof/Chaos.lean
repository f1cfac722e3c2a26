/-
  What the chaos endpoints do to a node.

  A request that is answered with an error changes nothing; the others are commands.  Every fault is
  what the last command that concerns it asked for (`faults_follow_last_commands`), and what happens
  to an RPC is decided by the faults of the moment it arrives (`faults_decided_on_arrival`).
-/
import DistCache.Chaos
import DistCache.Proof.Expiry
import DistCache.Proof.Split

namespace DistCache

open Lib

/-! ## Commands -/

/-- A request that changes the injector. -/
inductive ChaosCommand where
  | fail (failed : Bool)
  | slow (latencyMs : Int64)
  | partition (peerID : NodeID) (partition : Bool)
  | recover

namespace ChaosCommand

/-- What a command sets `failed` to. -/
def failed : ChaosCommand → Option Bool
  | .fail failed => some failed
  | .recover => some false
  | _ => none

/-- What a command sets the latency to, in milliseconds. -/
def latencyMs : ChaosCommand → Option Int64
  | .slow latencyMs => some latencyMs
  | .recover => some 0
  | _ => none

/-- Whether a command partitions the peer, or ends its partition. -/
def partitions (peerID : NodeID) : ChaosCommand → Option Bool
  | .partition p cut => if p = peerID then some cut else none
  | .recover => some false
  | _ => none

end ChaosCommand

/-- The command of a request, if it is accepted and changes anything. -/
def ChaosRequest.command (req : ChaosRequest) : Option ChaosCommand :=
  if req.method ≠ .post then none
  else
    match req.endpoint with
    | .failNode (.ok failed) => some (.fail failed)
    | .slowNode (.ok latencyMs) => some (.slow latencyMs)
    | .partition (.ok (peerID, partition)) =>
      if peerID = [] then none else some (.partition peerID partition)
    | .recover => some .recover
    | _ => none

namespace Chaos

def exec (c : Chaos) : ChaosCommand → Chaos
  | .fail failed => c.setFailed failed
  | .slow latencyMs => c.setLatency (latencyMs * millisecond)
  | .partition peerID partition => c.partitionNode peerID partition
  | .recover => c.recover

/-- The injector after a request. -/
def request (c : Chaos) (r : PeerOrder × ChaosRequest) : Chaos := (c.serveHTTP r.1 r.2).2

section
variable (c : Chaos) (ord : PeerOrder) (req : ChaosRequest)

/-- **A request is its command, or nothing.** -/
theorem serveHTTP_snd : (c.serveHTTP ord req).2 = run exec c req.command.toList := by
  obtain ⟨method, endpoint⟩ := req
  by_cases hm : method = .post
  · subst hm
    cases endpoint with
    | failNode body => cases body <;> rfl
    | slowNode body => cases body <;> rfl
    | partition body =>
      rcases body with err | ⟨peerID, partition⟩
      · rfl
      · by_cases hp : peerID = []
        · simp [serveHTTP, handlePartition, handlePost, ChaosRequest.command, hp]
        · simp [serveHTTP, handlePartition, handlePost, ChaosRequest.command, hp, exec]
    | recover => rfl
    | status => rfl
  · cases endpoint with
    | status =>
      simp only [serveHTTP, handleStatus]
      split_ifs <;> simp [ChaosRequest.command, hm]
    | _ =>
      simp [serveHTTP, handleFailNode, handleSlowNode, handlePartition, handleRecover, handlePost,
        ChaosRequest.command, hm]

/-- A request that is answered with an error is no command. -/
theorem command_of_error (h : (c.serveHTTP ord req).1.code ≠ 200) : req.command = none := by
  obtain ⟨method, endpoint⟩ := req
  by_cases hm : method = .post
  · subst hm
    cases endpoint with
    | failNode body => cases body <;> first | rfl | exact absurd rfl h
    | slowNode body => cases body <;> first | rfl | exact absurd rfl h
    | partition body =>
      rcases body with err | ⟨peerID, cut⟩
      · rfl
      · by_cases hp : peerID = []
        · simp [ChaosRequest.command, hp]
        · exact absurd (by simp [serveHTTP, handlePartition, handlePost, hp, ChaosReply.code]) h
    | recover => exact absurd rfl h
    | status => rfl
  · simp [ChaosRequest.command, hm]

theorem request_eq (r : PeerOrder × ChaosRequest) :
    c.request r = run exec c r.2.command.toList := c.serveHTTP_snd r.1 r.2

end

theorem run_request (reqs : List (PeerOrder × ChaosRequest)) :
    run request new reqs = run exec new (reqs.filterMap fun r => r.2.command) :=
  (Along.of_forall (P := fun _ => True) (fun _ _ => trivial) new).simulates
    (R := Eq) (fun c _ r hc _ => hc ▸ c.request_eq r) rfl

/-! ## The last command wins -/

section
variable (c : Chaos) (cmd : ChaosCommand)

theorem failed_exec : (c.exec cmd).failed = cmd.failed.getD c.failed := by
  cases cmd <;> rfl

theorem latencyMs_exec :
    (c.exec cmd).latencyMs = (cmd.latencyMs.map (· * millisecond)).getD c.latencyMs := by
  cases cmd with
  | recover => rfl
  | _ => rfl

theorem isPartitioned_exec (peerID : NodeID) :
    (c.exec cmd).isPartitioned peerID = (cmd.partitions peerID).getD (c.isPartitioned peerID) := by
  cases cmd with
  | partition p cut =>
    by_cases hp : p = peerID
    · subst hp
      cases cut <;> simp [exec, partitionNode, isPartitioned, ChaosCommand.partitions]
    · have hp' : peerID ≠ p := Ne.symm hp
      cases cut <;> simp [exec, partitionNode, isPartitioned, ChaosCommand.partitions, hp, hp']
  | recover => simp [exec, recover, isPartitioned, ChaosCommand.partitions]
  | fail | slow => rfl

end

/-- A duration has few whole milliseconds. -/
theorem abs_tdiv_le {x : ℤ} (hlow : -2 ^ 63 ≤ x) (hhigh : x < 2 ^ 63) :
    |x.tdiv 1000000| ≤ 9223372036854 := by
  have hdiv : (x.tdiv 1000000).natAbs = x.natAbs / 1000000 := Int.natAbs_tdiv x 1000000
  rw [Int.abs_eq_natAbs, hdiv]
  omega

/-- A number of milliseconds is reported as it was set exactly if its nanoseconds are in range. -/
theorem milliseconds_mul (ms : Int64) :
    Duration.milliseconds (ms * millisecond) = ms ↔ |ms.toInt| ≤ 9223372036854 := by
  have hbounds := abs_tdiv_le (ms * millisecond).le_toInt (ms * millisecond).toInt_lt
  have hdiv : (Duration.milliseconds (ms * millisecond)).toInt =
      (ms * millisecond).toInt.tdiv 1000000 := by
    rw [abs_le] at hbounds
    rw [Duration.milliseconds, Int64.toInt_div, toInt_millisecond]
    refine Int.bmod_eq_of_le ?_ ?_
    · omega
    · omega
  rw [← Int64.toInt_inj, hdiv]
  constructor
  · intro h
    rw [← h]
    exact hbounds
  · intro hms
    rw [abs_le] at hms
    have hmul : (ms * millisecond).toInt = ms.toInt * 1000000 := by
      rw [Int64.toInt_mul, toInt_millisecond]
      refine Int.bmod_eq_of_le ?_ ?_
      · omega
      · omega
    rw [hmul, Int.mul_tdiv_cancel _ (by decide)]

/-- **The faults are what the last commands asked for.**  After any requests to the chaos endpoints,
    the node is failed, and a peer partitioned, if the last command that concerns it says so, and
    the gossip is blocked accordingly; the latency is the last one set.  The status reports these
    faults, with every partitioned peer once, and the latency as it was set exactly if its
    nanoseconds are in range.  A request that is answered with an error changes nothing. -/
theorem faults_follow_last_commands (reqs : List (PeerOrder × ChaosRequest)) :
    let c := run request new reqs
    let cmds := reqs.filterMap fun r => r.2.command
    let latencyMs := (cmds.filterMap ChaosCommand.latencyMs).getLastD 0
    c.failed = (cmds.filterMap ChaosCommand.failed).getLastD false ∧
      (∀ peerID, c.isPartitioned peerID =
        (cmds.filterMap (ChaosCommand.partitions peerID)).getLastD false) ∧
      c.latencyMs = latencyMs * millisecond ∧
      (∀ (m : Membership) (peerID : NodeID), m.injector = some c.toFaultInjector →
        m.isBlocked peerID = (c.failed || c.isPartitioned peerID)) ∧
      ∀ ord, (∃ status, (c.serveHTTP ord ⟨.get, .status⟩).1 = .status status ∧
          status.failed = c.failed ∧
          status.partitioned.Nodup ∧
          (∀ peerID, peerID ∈ status.partitioned ↔ c.isPartitioned peerID = true) ∧
          (status.latencyMs = latencyMs ↔ |latencyMs.toInt| ≤ 9223372036854)) ∧
        ∀ req, (c.serveHTTP ord req).1.code ≠ 200 → (c.serveHTTP ord req).2 = c := by
  intro c cmds latencyMs
  have hc : c = run exec new cmds := run_request reqs
  have hlatency : c.latencyMs = latencyMs * millisecond := by
    have hzero : new.latencyMs = 0 * millisecond := by decide
    rw [hc, run_last_write _ _ latencyMs_exec, ← List.map_filterMap, hzero, List.getLastD_map]
  refine ⟨?_, fun peerID => ?_, hlatency, fun m peerID hm => ?_, fun ord => ⟨?_, fun req hcode => ?_⟩⟩
  · rw [hc]
    exact run_last_write (fun c => c.failed) _ failed_exec new cmds
  · rw [hc]
    exact run_last_write (fun c => c.isPartitioned peerID) _
      (fun c cmd => c.isPartitioned_exec cmd peerID) new cmds
  · simp [Membership.isBlocked, hm, isPartitioned]
  · refine ⟨c.status ord, rfl, rfl, ?_, fun peerID => ?_, ?_⟩
    · rw [← Multiset.coe_nodup, status, ord.keys]
      exact c.partitioned.nodup
    · rw [← Multiset.mem_coe, status, ord.keys, isPartitioned, decide_eq_true_iff]
      exact Iff.rfl
    · rw [status, hlatency]
      exact milliseconds_mul latencyMs
  · rw [serveHTTP_snd, command_of_error c ord req hcode]
    rfl

/-- Some order of the peers. -/
noncomputable def anyOrder : PeerOrder := ⟨Finset.toList, Finset.coe_toList⟩

/-- A latency that is out of range is accepted, and a request with the wrong method is not. -/
noncomputable def slowed : List (PeerOrder × ChaosRequest) :=
  [(anyOrder, ⟨.post, .slowNode (.ok 9223372036855)⟩), (anyOrder, ⟨.get, .failNode (.ok true)⟩)]

theorem faults_follow_last_commands_slowed :
    (run request new slowed).failed = false ∧
      ∃ status, ((run request new slowed).serveHTTP anyOrder ⟨.get, .status⟩).1 = .status status ∧
        status.latencyMs ≠ 9223372036855 := by
  obtain ⟨hfailed, -, -, -, hord⟩ := faults_follow_last_commands slowed
  obtain ⟨status, hstatus, -, -, -, hlatency⟩ := (hord anyOrder).1
  refine ⟨hfailed, status, hstatus, fun heq => ?_⟩
  exact absurd (hlatency.1 heq) (by decide)

end Chaos

/-! ## Behind the interceptor -/

namespace GuardedServer

/-- What becomes of the RPC number `id`, by what the interceptor said when it arrived. -/
def Fate (g : GuardedServer) (id : ℕ) (call : ServerCall) (now : Time) : Chaos.Verdict → Prop
  | .reject _ => id ∈ g.rejected
  | .proceed => ⟨id, call, now⟩ ∈ g.handled
  | .delay latency =>
    ⟨id, call, now + latency.toInt⟩ ∈ g.delayed ∨ id ∈ g.canceled ∨
      ∃ t ≥ now + latency.toInt, ⟨id, call, t⟩ ∈ g.handled

/-- The numbers of the RPCs, by what became of them. -/
def ids (g : GuardedServer) : List ℕ :=
  g.delayed.map DelayedCall.id ++ g.rejected ++ g.canceled ++ g.handled.map HandledCall.id

/-- The request of a step to the chaos endpoints. -/
def Act.request : Act → Option (PeerOrder × ChaosRequest)
  | .http ord req => some (ord, req)
  | _ => none

variable {g : GuardedServer} {a : Act}

/-- What has become of an RPC is not undone. -/
theorem frame_step (g : GuardedServer) (a : Act) :
    g.rejected ⊆ (g.step a).rejected ∧ g.canceled ⊆ (g.step a).canceled ∧
      g.handled ⊆ (g.step a).handled := by
  cases a with
  | http ord req => exact ⟨List.Subset.refl _, List.Subset.refl _, List.Subset.refl _⟩
  | arrive call now =>
    simp only [step, arrive]
    cases g.chaos.intercept <;> simp [handle]
  | elapse d now => simp [step, handle]
  | cancel d => simp [step]

/-- An RPC that waits goes on waiting, is canceled, or is handled when its time has come. -/
theorem delayed_step (ha : g.Enabled a) {d : DelayedCall} (hd : d ∈ g.delayed) :
    d ∈ (g.step a).delayed ∨ d.id ∈ (g.step a).canceled ∨
      ∃ t ≥ d.due, ⟨d.id, d.call, t⟩ ∈ (g.step a).handled := by
  cases a with
  | http ord req => exact .inl hd
  | arrive call now =>
    left
    simp only [step, arrive]
    cases g.chaos.intercept <;> simp [handle, hd]
  | elapse d' now =>
    by_cases hne : d = d'
    · subst hne
      exact .inr (.inr ⟨now, ha.2, by simp [step, handle]⟩)
    · exact .inl ((List.mem_erase_of_ne hne).2 hd)
  | cancel d' =>
    by_cases hne : d = d'
    · subst hne
      exact .inr (.inl (by simp [step]))
    · exact .inl ((List.mem_erase_of_ne hne).2 hd)

theorem arrive_fate (g : GuardedServer) (call : ServerCall) (now : Time) :
    (g.arrive call now).Fate g.arrived call now g.chaos.intercept := by
  simp only [arrive]
  cases g.chaos.intercept with
  | reject text => simp [Fate]
  | delay latency => simp [Fate]
  | proceed => simp [Fate, handle]

/-- What has become of an RPC does not change, except that one that waits ends its wait. -/
theorem Fate.step {id : ℕ} {call : ServerCall} {now : Time} {v : Chaos.Verdict}
    (h : g.Fate id call now v) (ha : g.Enabled a) : (g.step a).Fate id call now v := by
  cases v with
  | reject text =>
    have hsub : g.rejected ⊆ (g.step a).rejected := (frame_step g a).1
    exact hsub h
  | proceed =>
    have hsub : g.handled ⊆ (g.step a).handled := (frame_step g a).2.2
    exact hsub h
  | delay latency =>
    obtain ⟨-, hcanceled, hhandled⟩ := frame_step g a
    rcases h with hwait | hcancel | ⟨t, ht, hdone⟩
    · rcases delayed_step ha hwait with hwait | hcancel | ⟨t, ht, hdone⟩
      · exact .inl hwait
      · exact .inr (.inl hcancel)
      · exact .inr (.inr ⟨t, ht, hdone⟩)
    · exact .inr (.inl (hcanceled hcancel))
    · exact .inr (.inr ⟨t, ht, hhandled hdone⟩)

/-- The numbers after an RPC has moved from those that wait to another list. -/
theorem count_ids_erase {d : DelayedCall} (hd : d ∈ g.delayed) (n : ℕ) :
    ((g.delayed.erase d).map DelayedCall.id).count n + [d.id].count n =
      (g.delayed.map DelayedCall.id).count n := by
  rw [((List.perm_cons_erase hd).map DelayedCall.id).count_eq, List.map_cons, ← List.count_append,
    List.perm_append_comm.count_eq]
  rfl

/-- Every RPC that has arrived is in one place. -/
theorem ids_step (h : g.ids.Perm (List.range g.arrived)) (ha : g.Enabled a) :
    (g.step a).ids.Perm (List.range (g.step a).arrived) := by
  rw [List.perm_iff_count] at h ⊢
  intro n
  have hn := h n
  simp only [ids, List.count_append] at hn ⊢
  cases a with
  | http ord req => exact hn
  | arrive call now =>
    simp only [step, arrive]
    cases g.chaos.intercept with
    | reject text | delay latency =>
      simp only [List.range_succ, List.map_append, List.count_append, List.map_cons, List.map_nil]
      omega
    | proceed =>
      simp only [handle, List.range_succ, List.map_append, List.count_append, List.map_cons,
        List.map_nil]
      omega
  | elapse d now =>
    have herase := count_ids_erase ha.1 n
    simp only [step, handle, List.map_append, List.count_append, List.map_cons, List.map_nil]
    omega
  | cancel d =>
    have herase := count_ids_erase ha n
    simp only [step, List.count_append]
    omega

/-- The chaos endpoints are the only ones to change the injector. -/
theorem chaos_step (g : GuardedServer) (a : Act) :
    (g.step a).chaos = run Chaos.request g.chaos a.request.toList := by
  cases a with
  | arrive call now =>
    simp only [step, arrive]
    split <;> rfl
  | _ => rfl

/-- A call that was handled, on the server. -/
def HandledCall.apply (cs : CacheServer) (h : HandledCall) : CacheServer := cs.call h.time h.call

/-- The server has executed the calls that were handled. -/
theorem server_step {server : CacheServer} (h : g.server = run HandledCall.apply server g.handled)
    (a : Act) : (g.step a).server = run HandledCall.apply server (g.step a).handled := by
  have hhandle : ∀ id call now, g.server.call now call =
      run HandledCall.apply server (g.handled ++ [⟨id, call, now⟩]) := by
    intro id call now
    rw [run_append, ← h]
    rfl
  cases a with
  | http ord req => exact h
  | arrive call now =>
    simp only [step, arrive]
    cases g.chaos.intercept with
    | reject text => exact h
    | delay latency => exact h
    | proceed => exact hhandle g.arrived call now
  | elapse d now => exact hhandle d.id d.call now
  | cancel d => exact h

/-- **Faults are decided on arrival.**  Whatever requests to the chaos endpoints, RPCs, timers and
    cancellations interleave: an RPC that arrives while the node is failed is rejected; one that
    meets a latency waits at least that long before it is handled, or its context ends, even if the
    node is failed or recovered meanwhile; any other is handled at once.  Every RPC ends in one
    of these ways only, and the server has executed exactly the calls that were handled. -/
theorem faults_decided_on_arrival (server : CacheServer) (before after : List Act)
    (call : ServerCall) (now : Time)
    (hrun : Along step Enabled (start server) (before ++ .arrive call now :: after)) :
    let g := run step (start server) before
    let g' := run step g (.arrive call now :: after)
    g.chaos = run Chaos.request .new (before.filterMap Act.request) ∧
      g'.Fate g.arrived call now g.chaos.intercept ∧
      (g'.delayed.map DelayedCall.id ++ g'.rejected ++ g'.canceled ++
        g'.handled.map HandledCall.id).Perm (List.range g'.arrived) ∧
      g'.server = run (fun cs h => cs.call h.time h.call) server g'.handled := by
  intro g g'
  obtain ⟨hbefore, -, hafter⟩ := hrun.split
  have hend : g' = run step (start server) (before ++ .arrive call now :: after) :=
    (run_append ..).symm
  refine ⟨?_, ?_, ?_, ?_⟩
  · exact hbefore.simulates (R := fun g c => g.chaos = c)
      (fun g c a hc _ => by rw [chaos_step, hc]) rfl
  · exact hafter.inv (I := fun s : GuardedServer => s.Fate g.arrived call now g.chaos.intercept)
      (fun s a h ha => h.step ha) (arrive_fate g call now)
  · rw [hend]
    exact hrun.inv (I := fun s : GuardedServer => s.ids.Perm (List.range s.arrived))
      (fun s a h ha => ids_step h ha) (.refl [])
  · rw [hend]
    exact run_inv (I := fun s : GuardedServer => s.server = run HandledCall.apply server s.handled)
      (fun s a h => server_step h a) rfl _

instance (g : GuardedServer) : ∀ a, Decidable (g.Enabled a)
  | .elapse _ _ => inferInstanceAs (Decidable (_ ∧ _))
  | .cancel d => inferInstanceAs (Decidable (d ∈ g.delayed))
  | .http _ _ | .arrive _ _ => inferInstanceAs (Decidable True)

/-- A read arrives while the latency is 5 ms.  The node is failed while it waits, and a second read
    is rejected; the first one is handled all the same, when its delay has passed. -/
theorem faults_decided_on_arrival_delayed :
    let read : ServerCall := .request (.get ⟨[107]⟩)
    let slow : Act := .http Chaos.anyOrder ⟨.post, .slowNode (.ok 5)⟩
    let fail : Act := .http Chaos.anyOrder ⟨.post, .failNode (.ok true)⟩
    let after : List Act := [fail, .arrive read 2, .elapse ⟨0, read, 5000000⟩ 6000000]
    let g' := run step (start eager) (slow :: .arrive read 0 :: after)
    g'.delayed = [] ∧ g'.rejected = [1] ∧ g'.canceled = [] ∧
      ∃ t ≥ (5000000 : Time), ⟨0, read, t⟩ ∈ g'.handled := by
  intro read slow fail after g'
  have hdelayed : g'.delayed = [] := by decide +kernel
  have hcanceled : g'.canceled = [] := by decide +kernel
  have hfate : g'.Fate 0 read 0 (.delay 5000000) :=
    (faults_decided_on_arrival eager [slow] after read 0 (by decide +kernel)).2.1
  obtain hd | hc | hhandled := hfate
  · rw [hdelayed] at hd
    cases hd
  · rw [hcanceled] at hc
    cases hc
  · exact ⟨hdelayed, by decide +kernel, hcanceled, hhandled⟩

end GuardedServer

end DistCache
