/-
  What concurrent `Get`s of a client return.

  The writes of a key have the order in which the server executes them.  What a `Get` finds
  is fresh if no write that had returned when it started came after the write of that
  value (`Fresh`).  The client-side cache keeps to this as long as it only stores answers
  that no write has overtaken (`Undisturbed`): then what it has for the key is the current value, and
  no write is about to change it (`Inv.cached`).
-/
import DistCache.Lib.Run
import DistCache.Proof.Client

namespace DistCache

open Lib CacheServer

/-- The call is a write that the server has not executed. -/
def InFlight.isWrite : InFlight → Bool
  | .write _ => true
  | _ => false

namespace Session

/-- The value of the last write, if there is one. -/
def Current (log : List ClientWrite) (value : Value) : Prop :=
  log = [] ∨ ∃ ttl, log.getLast? = some (.set value ttl)

/-- If a `Get` finds a value, then for every write that had returned when it started, the value
    was written by this write or by one executed after it. -/
def Fresh (log : List ClientWrite) (r : GetResult) : Prop :=
  r.found = true → ∀ i ∈ r.since, ∃ j ≥ i, ∃ ttl, log[j]? = some (.set r.value ttl)

theorem Fresh.append {log : List ClientWrite} {r : GetResult} (h : Fresh log r) (w : ClientWrite) :
    Fresh (log ++ [w]) r := by
  intro hf i hi
  obtain ⟨j, hj, ttl, he⟩ := h hf i hi
  refine ⟨j, hj, ttl, ?_⟩
  rw [List.getElem?_append_left (List.getElem?_eq_some_iff.1 he).1, he]

/-- What was current when a `Get` was answered is fresh. -/
theorem fresh_of_current {log : List ClientWrite} {n : ℕ} {r : GetResult}
    (hsince : ∀ i ∈ r.since, i < n) (hn : n ≤ log.length)
    (h : r.found = true → Current (log.take n) r.value) : Fresh log r := by
  intro hf i hi
  have hlt := hsince i hi
  rcases h hf with hnil | ⟨ttl, hlast⟩
  · have := congrArg List.length hnil
    rw [List.length_take_of_le hn, List.length_nil] at this
    omega
  · refine ⟨n - 1, by omega, ttl, ?_⟩
    rw [List.getLast?_eq_getElem?, List.length_take_of_le hn,
      List.getElem?_take_of_lt (by omega)] at hlast
    exact hlast

/-! ## The invariant -/

/-- What the writes so far say about a call in progress. -/
def CallOK (log : List ClientWrite) : InFlight → Prop
  | .get since => ∀ i ∈ since, i < log.length
  | .answered since version resp =>
    version ≤ log.length ∧ (∀ i ∈ since, i < version) ∧
      (resp.found = true → Current (log.take version) resp.value)
  | .write _ => True
  | .executed i => i < log.length

theorem CallOK.append {log : List ClientWrite} {call : InFlight} (h : CallOK log call)
    (w : ClientWrite) : CallOK (log ++ [w]) call := by
  have hlt : ∀ i, i < log.length → i < (log ++ [w]).length := by
    intro i hi
    rw [List.length_append, List.length_singleton]
    omega
  cases call with
  | get since => exact fun i hi => hlt i (h i hi)
  | answered since version resp =>
    obtain ⟨h1, h2, h3⟩ := h
    refine ⟨?_, h2, ?_⟩
    · rw [List.length_append]; omega
    · rw [List.take_append_of_le_length h1]; exact h3
  | write w => trivial
  | executed i => exact hlt i h

structure Inv (k : Key) (s : Session) : Prop where
  single : Single s.server
  linked : s.client.Linked
  stored : ∀ e, s.server.store.entry k = some e → Current s.log e.value
  cached : ∀ e, s.client.held k = some e →
    Current s.log e.value ∧ ∀ call ∈ s.inFlight, call.isWrite = false
  returned : ∀ i ∈ s.returned, i < s.log.length
  calls : ∀ call ∈ s.inFlight, CallOK s.log call
  results : ∀ r ∈ s.results, Fresh s.log r

/-- An answer is stored in the cache only if no write was executed after it, and none has
    dropped the key from the cache and is still to be executed. -/
def Undisturbed (s : Session) : Act → Prop
  | .finish _ (.answered _ version resp) => resp.found = true → resp.isHot = true →
    version = s.log.length ∧ ∀ call ∈ s.inFlight, call.isWrite = false
  | _ => True

instance (s : Session) : ∀ a, Decidable (s.Undisturbed a)
  | .finish _ (.answered _ version resp) => inferInstanceAs (Decidable (resp.found = true →
    resp.isHot = true → version = s.log.length ∧ ∀ call ∈ s.inFlight, call.isWrite = false))
  | .finish _ (.get _) | .finish _ (.write _) | .finish _ (.executed _) =>
    inferInstanceAs (Decidable True)
  | .lookup _ | .invalidate _ | .serve _ _ | .drop _ => inferInstanceAs (Decidable True)

variable {k : Key} {s : Session} {now : Time}

theorem mem_replace {call call' : InFlight} {calls : List InFlight}
    (h : call' ∈ (s.replace call calls).inFlight) : call' ∈ s.inFlight ∨ call' ∈ calls := by
  rcases List.mem_append.1 h with h | h
  · exact Or.inl (List.mem_of_mem_erase h)
  · exact Or.inr h

theorem Inv.lookup (h : Inv k s) (now : Time) : Inv k (s.step k (.lookup now)) := by
  have hheld : ∀ e, (s.client.l1Get now k).2.held k = some e → s.client.held k = some e := by
    intro e he
    rw [h.linked.held_l1Get, if_pos rfl] at he
    exact (Option.filter_eq_some_iff.1 he).1
  have hlinked : (s.client.l1Get now k).2.Linked := h.linked.l1Get
  have hfst := h.linked.l1Get_fst now k
  simp only [step]
  rcases hg : s.client.l1Get now k with ⟨_ | value, client⟩
  · rw [hg] at hheld hlinked
    refine ⟨h.single, hlinked, h.stored, ?_, h.returned, ?_, h.results⟩
    · intro e he
      obtain ⟨h1, h2⟩ := h.cached e (hheld e he)
      refine ⟨h1, fun call hc => ?_⟩
      rcases List.mem_append.1 hc with hc | hc
      · exact h2 call hc
      · rw [List.mem_singleton.1 hc]; rfl
    · intro call hc
      rcases List.mem_append.1 hc with hc | hc
      · exact h.calls call hc
      · rw [List.mem_singleton.1 hc]; exact h.returned
  · rw [hg] at hheld hlinked hfst
    refine ⟨h.single, hlinked, h.stored, fun e he => h.cached e (hheld e he), h.returned, h.calls, ?_⟩
    intro r hr
    rcases List.mem_append.1 hr with hr | hr
    · exact h.results r hr
    · rw [List.mem_singleton.1 hr]
      obtain ⟨e, he, rfl⟩ := Option.map_eq_some_iff.1 hfst.symm
      refine fresh_of_current h.returned le_rfl fun _ => ?_
      rw [List.take_length]
      exact (h.cached e (Option.filter_eq_some_iff.1 he).1).1

theorem Inv.invalidate (h : Inv k s) (w : ClientWrite) : Inv k (s.step k (.invalidate w)) := by
  refine ⟨h.single, h.linked.l1Delete, h.stored, ?_, h.returned, ?_, h.results⟩
  · intro e he
    have hnone : (s.client.l1Delete k).held k = none := by
      rw [h.linked.held_l1Delete, if_pos rfl]
    exact absurd (hnone.symm.trans he) (by simp)
  · intro call hc
    rcases List.mem_append.1 hc with hc | hc
    · exact h.calls call hc
    · rw [List.mem_singleton.1 hc]; trivial

theorem Inv.drop (h : Inv k s) (call : InFlight) : Inv k (s.step k (.drop call)) := by
  have hsub : ∀ c ∈ (s.replace call []).inFlight, c ∈ s.inFlight := by
    intro c hc
    exact (mem_replace hc).resolve_right List.not_mem_nil
  refine ⟨h.single, h.linked, h.stored, ?_, h.returned, ?_, h.results⟩
  · intro e he
    obtain ⟨h1, h2⟩ := h.cached e he
    exact ⟨h1, fun c hc => h2 c (hsub c hc)⟩
  · intro c hc
    exact h.calls c (hsub c hc)

/-- A read leaves the entry or removes it. -/
theorem Inv.served_get (h : Inv k s) (now : Time) :
    Single (s.server.invoke .answered now (.get ⟨k⟩)).2 ∧
      ∀ e, (s.server.invoke .answered now (.get ⟨k⟩)).2.store.entry k = some e →
        Current s.log e.value := by
  refine ⟨h.single.invoke _ _ _, ?_⟩
  intro e he
  rw [h.single.invoke_snd, if_neg (by decide)] at he
  rcases entry_serveGet s.server now (spares_self k) with hs | hs
  · exact h.stored e (hs.symm.trans he)
  · exact absurd (hs.symm.trans he) (by simp)

/-- An answer that finds something has the current value. -/
theorem Inv.answer_current (h : Inv k s) (now : Time) (resp : GetResponse)
    (hr : (s.server.invoke .answered now (.get ⟨k⟩)).1 = some (.get resp))
    (hf : resp.found = true) : Current s.log resp.value := by
  obtain ⟨isHot, he⟩ := h.single.invoke_get hr
  obtain rfl := Response.get.inj he
  obtain ⟨value, hv⟩ := Option.isSome_iff_exists.1 hf
  rw [s.server.store.get_fst] at hv
  obtain ⟨e, he, rfl⟩ := Option.map_eq_some_iff.1 hv
  have hvalue : (s.server.store.get now k).1 = some e.value := by
    rw [s.server.store.get_fst, he]; rfl
  show Current s.log ((s.server.store.get now k).1.getD [])
  rw [hvalue]
  exact h.stored e (Option.filter_eq_some_iff.1 he).1

theorem Inv.serve_get (h : Inv k s) {since : List ℕ} (hc : .get since ∈ s.inFlight) (now : Time) :
    Inv k (s.serve k now (.get since)) := by
  obtain ⟨hsingle, hstored⟩ := h.served_get now
  have hcurrent := h.answer_current now
  simp only [serve]
  rcases hi : s.server.invoke .answered now (.get ⟨k⟩) with ⟨resp, server⟩
  rw [hi] at hsingle hstored hcurrent
  have hnone : Inv k { s.replace (.get since) [] with server } := by
    have hd := h.drop (.get since)
    exact ⟨hsingle, hd.linked, hstored, hd.cached, hd.returned, hd.calls, hd.results⟩
  rcases resp with _ | resp
  · exact hnone
  · cases resp with
    | get resp =>
      refine ⟨hsingle, h.linked, hstored, ?_, h.returned, ?_, h.results⟩
      · intro e he
        obtain ⟨h1, h2⟩ := h.cached e he
        refine ⟨h1, fun c hc => ?_⟩
        rcases mem_replace hc with hc | hc
        · exact h2 c hc
        · rw [List.mem_singleton.1 hc]; rfl
      · intro c hc'
        rcases mem_replace hc' with hc' | hc'
        · exact h.calls c hc'
        · rw [List.mem_singleton.1 hc']
          refine ⟨le_rfl, h.calls _ hc, fun hf => ?_⟩
          show Current (s.log.take s.log.length) resp.value
          rw [List.take_length]
          exact hcurrent resp rfl hf
    | set resp => exact hnone
    | delete resp => exact hnone
    | expire resp => exact hnone

/-- The server has what the write wrote. -/
theorem Inv.written (h : Inv k s) (now : Time) (w : ClientWrite) {e : Entry}
    (he : (s.server.invoke .answered now (w.request k)).2.store.entry k = some e) :
    Current (s.log ++ [w]) e.value := by
  rw [h.single.invoke_snd, if_neg (by decide)] at he
  cases w with
  | set value ttl =>
    rw [ClientWrite.request, s.server.entry_serve_set now (spares_self k), if_pos rfl] at he
    obtain rfl := Option.some.inj he
    exact Or.inr ⟨ttl, List.getLast?_concat⟩
  | delete =>
    rw [ClientWrite.request, s.server.entry_serve_delete, if_pos rfl] at he
    cases he

theorem Inv.serve_write (h : Inv k s) {w : ClientWrite} (hc : .write w ∈ s.inFlight) (now : Time) :
    Inv k (s.serve k now (.write w)) := by
  refine ⟨h.single.invoke _ _ _, h.linked, fun e he => h.written now w he, ?_, ?_, ?_, ?_⟩
  · -- the key was dropped from the cache, and nothing was stored since
    intro e he
    exact absurd ((h.cached e he).2 _ hc) (by simp [InFlight.isWrite])
  · intro i hi
    have := h.returned i hi
    show i < (s.log ++ [w]).length
    rw [List.length_append]
    omega
  · intro c hc'
    rcases mem_replace hc' with hc' | hc'
    · exact (h.calls c hc').append w
    · rw [List.mem_singleton.1 hc']
      show s.log.length < (s.log ++ [w]).length
      rw [List.length_append, List.length_singleton]
      omega
  · intro r hr
    exact (h.results r hr).append w

theorem Inv.finish_answered (h : Inv k s) {since : List ℕ} {version : ℕ} {resp : GetResponse}
    (hc : .answered since version resp ∈ s.inFlight) (now : Time)
    (hu : s.Undisturbed (.finish now (.answered since version resp))) :
    Inv k (s.finish k now (.answered since version resp)) := by
  obtain ⟨hle, hsince, hvalue⟩ := h.calls _ hc
  have hd := h.drop (.answered since version resp)
  refine ⟨h.single, h.linked.l1Store resp, h.stored, ?_, h.returned, hd.calls, ?_⟩
  · intro e he
    rcases h.linked.held_l1Store he with he | ⟨-, hf, hhot, hv, -⟩
    · exact hd.cached e he
    · obtain ⟨hver, hno⟩ := hu hf hhot
      refine ⟨?_, fun c hc' => ?_⟩
      · have := hvalue hf
        rw [hver, List.take_length] at this
        rw [hv]; exact this
      · exact hno c ((mem_replace hc').resolve_right List.not_mem_nil)
  · intro r hr
    rcases List.mem_append.1 hr with hr | hr
    · exact h.results r hr
    · rw [List.mem_singleton.1 hr]
      exact fresh_of_current hsince hle hvalue

theorem Inv.finish_executed (h : Inv k s) {i : ℕ} (hc : .executed i ∈ s.inFlight) (now : Time) :
    Inv k (s.finish k now (.executed i)) := by
  have hd := h.drop (.executed i)
  refine ⟨h.single, h.linked, h.stored, hd.cached, ?_, hd.calls, h.results⟩
  intro j hj
  rcases List.mem_append.1 hj with hj | hj
  · exact h.returned j hj
  · rw [List.mem_singleton.1 hj]; exact h.calls _ hc

theorem Inv.step (h : Inv k s) {a : Act} (ha : s.Enabled a) (hu : s.Undisturbed a) :
    Inv k (s.step k a) := by
  cases a with
  | lookup now => exact h.lookup now
  | invalidate w => exact h.invalidate w
  | serve now call =>
    cases call with
    | get since => exact h.serve_get ha now
    | write w => exact h.serve_write ha now
    | answered since version resp => exact h
    | executed i => exact h
  | finish now call =>
    cases call with
    | get since => exact h
    | write w => exact h
    | answered since version resp => exact h.finish_answered ha now hu
    | executed i => exact h.finish_executed ha now
  | drop call => exact h.drop call

end Session

/-- **A client reads its own writes** through its cache, in every run in which no answer is
    stored in the cache after a write has overtaken it: a `Get` that finds a value finds one
    that the server held when the last write that had returned before was executed, or later. -/
theorem client_reads_own_writes {k : Key} {s : Session} (hserver : Single s.server)
    (hclient : s.client.Linked)
    (hidle : s.inFlight = [] ∧ s.log = [] ∧ s.returned = [] ∧ s.results = [])
    (acts : List Session.Act) (hacts : Along (Session.step k) Session.Enabled s acts)
    (hcond : Along (Session.step k) Session.Undisturbed s acts) :
    ∀ r ∈ (run (Session.step k) s acts).results,
      Session.Fresh (run (Session.step k) s acts).log r := by
  obtain ⟨h1, h2, h3, h4⟩ := hidle
  have hinv : Session.Inv k s := by
    refine ⟨hserver, hclient, fun _ _ => Or.inl h2, fun _ _ => ⟨Or.inl h2, ?_⟩, ?_, ?_, ?_⟩
    all_goals simp [h1, h3, h4]
  exact (Along.inv (I := Session.Inv k) (fun s a hi ha => hi.step ha.1 ha.2) (hacts.and hcond)
    hinv).results

/-- No calls of the client of the hot server so far. -/
def hotSession : Session := ⟨hotClient, hotServer, [], [], [], []⟩

/-- The answer of the server for the hot key `[1]`. -/
def hotAnswer (value : Value) : GetResponse := ⟨[1], value, true, 0, true⟩

/-- Two `Set`s with a `Get` between them, which stores its answer at once. -/
def orderedActs : List Session.Act :=
  [.invalidate (.set [7] 0), .serve 1 (.write (.set [7] 0)), .finish 2 (.executed 0),
    .lookup 3, .serve 4 (.get [0]), .finish 5 (.answered [0] 1 (hotAnswer [7])),
    .invalidate (.set [8] 0), .serve 6 (.write (.set [8] 0)), .finish 7 (.executed 1)]

/-- The same calls, where the `Get` stores its answer after the second `Set` has returned. -/
def overtakenActs : List Session.Act :=
  [.invalidate (.set [7] 0), .serve 1 (.write (.set [7] 0)), .finish 2 (.executed 0),
    .lookup 3, .serve 4 (.get [0]),
    .invalidate (.set [8] 0), .serve 5 (.write (.set [8] 0)), .finish 6 (.executed 1),
    .finish 7 (.answered [0] 1 (hotAnswer [7]))]

/-- The next `Get` asks the server, and finds the second value. -/
theorem client_reads_own_writes_ordered :
    Session.Fresh (run (Session.step [1]) hotSession (orderedActs ++
      [.lookup 8, .serve 9 (.get [0, 1]), .finish 10 (.answered [0, 1] 2 (hotAnswer [8]))])).log
      ⟨[0, 1], [8], true⟩ :=
  client_reads_own_writes hotServer_single hotClient_linked ⟨rfl, rfl, rfl, rfl⟩ _
    (by decide +kernel) (by decide +kernel) _ (by decide +kernel)

/-- The next `Get` finds the first value in the cache, although the second `Set` had returned
    before it started. -/
theorem client_reads_overwritten :
    Single hotSession.server ∧ hotSession.client.Linked ∧
    Along (Session.step [1]) Session.Enabled hotSession (overtakenActs ++ [.lookup 8]) ∧
    (run (Session.step [1]) hotSession (overtakenActs ++ [.lookup 8])).log =
      [.set [7] 0, .set [8] 0] ∧
    (run (Session.step [1]) hotSession (overtakenActs ++ [.lookup 8])).results =
      [⟨[0], [7], true⟩, ⟨[0, 1], [7], true⟩] ∧
    ¬ Session.Fresh [.set [7] 0, .set [8] 0] ⟨[0, 1], [7], true⟩ := by
  refine ⟨hotServer_single, hotClient_linked, by decide +kernel, by decide +kernel,
    by decide +kernel, ?_⟩
  intro h
  obtain ⟨j, hj, ttl, he⟩ := h rfl 1 (by simp)
  match j, hj with
  | 1, _ => simp at he
  | j + 2, _ => simp at he

end DistCache
