/-
  How old a value can be that a client reads.

  A client finds in its cache what a node answered to one of its own `Get`s, and for no longer than
  the TTL of the cache.  So a value that is read was on a node not long ago, whatever the other
  clients have written since (`reads_are_recent`).
-/
import DistCache.Clients
import DistCache.Proof.Client
import DistCache.Proof.Lru

namespace DistCache

open Lib

/-- What the server answers to a `Get` that finds its key is in its store; the TTL is not sent. -/
theorem CacheServer.handle_get_found {cs : CacheServer} {now : Time} {key : Key}
    {resp : GetResponse} {sends : List Send}
    (h : (cs.handle now (.get ⟨key⟩)).1 = .reply (.get resp) sends) :
    resp.ttlMs = 0 ∧ (resp.found = true → (cs.store.get now key).1 = some resp.value) := by
  rcases hf : cs.forwardTarget (Request.get ⟨key⟩).serves key with _ | primary
  · rw [cs.handle_serve now (.get ⟨key⟩) hf] at h
    simp only [CacheServer.serve, CacheServer.serveGet] at h
    rcases hg : cs.store.get now key with ⟨_ | value, store⟩
    · simp only [hg, Handled.reply.injEq, Response.get.injEq] at h
      obtain ⟨rfl, -⟩ := h
      exact ⟨rfl, fun hfound => by cases hfound⟩
    · simp only [hg, Handled.reply.injEq, Response.get.injEq] at h
      obtain ⟨rfl, -⟩ := h
      exact ⟨rfl, fun _ => rfl⟩
  · rw [cs.handle_proxy now (.get ⟨key⟩) hf] at h
    cases h

namespace Client

/-- The default TTL of the cache, if there is one. -/
def defaultTTL (c : Client) : Option Duration := c.l1Cache.map L1Cache.defaultTTL

/-- The cache is linked, its TTL is at most `ttl`, and its entries meet `G`. -/
structure Caches (ttl : ℤ) (G : Key → L1Element → Prop) (c : Client) : Prop where
  linked : c.Linked
  ttl_le : ∀ d, c.defaultTTL = some d → d.toInt ≤ ttl
  entries : ∀ k e, c.held k = some e → G k e

section
variable {ttl : ℤ} {G G' : Key → L1Element → Prop} {c : Client} (h : c.Caches ttl G)
include h

theorem Caches.mono (hG : ∀ k e, G k e → G' k e) : c.Caches ttl G' :=
  ⟨h.linked, h.ttl_le, fun k e he => hG k e (h.entries k e he)⟩

theorem Caches.l1Get (now : Time) (key : Key) : (c.l1Get now key).2.Caches ttl G := by
  refine ⟨h.linked.l1Get, fun d hd => h.ttl_le d (hd ▸ ?_), fun k e he => ?_⟩
  · unfold Client.l1Get defaultTTL
    rcases hl : c.l1Cache with _ | l1
    · rw [hl]
    · exact congrArg (some ∘ Prod.snd) (l1.settings_step (.get now key)).symm
  · rw [h.linked.held_l1Get] at he
    split_ifs at he with hk
    · subst hk
      exact h.entries k e (Option.filter_eq_some_iff.1 he).1
    · exact h.entries k e he

theorem Caches.l1Delete (key : Key) : (c.l1Delete key).Caches ttl G := by
  refine ⟨h.linked.l1Delete, fun d hd => h.ttl_le d (hd ▸ ?_), fun k e he => ?_⟩
  · unfold Client.l1Delete defaultTTL
    rcases hl : c.l1Cache with _ | l1
    · rfl
    · exact congrArg (some ∘ Prod.snd) (l1.settings_step (.delete key)).symm
  · rw [h.linked.held_l1Delete] at he
    split_ifs at he
    exact h.entries k e he

theorem Caches.close : c.close.Caches ttl G := by
  refine ⟨fun l1 hl => ?_, fun d hd => h.ttl_le d (hd ▸ ?_), fun k e he => ?_⟩
  · obtain ⟨l1, -, rfl⟩ := Option.map_eq_some_iff.1 hl
    exact L1Cache.Linked.clear l1
  · unfold Client.close defaultTTL
    cases c.l1Cache <;> rfl
  · -- the cache is empty
    unfold Client.close Client.held at he
    cases hl : c.l1Cache <;> simp [hl, L1Cache.clear, L1Cache.held] at he

/-- The entry that a hot answer makes lives for the TTL of the cache. -/
theorem Caches.l1Store (now : Time) (key : Key) {resp : GetResponse} (hms : resp.ttlMs = 0)
    (hG : ∀ e : L1Element, resp.found = true → e.value = resp.value → e.expiresAt ≤ now + ttl →
      G key e) : (c.l1Store now key resp).Caches ttl G := by
  refine ⟨h.linked.l1Store resp, fun d hd => h.ttl_le d (hd ▸ ?_), fun k e he => ?_⟩
  · unfold Client.l1Store
    split_ifs
    · unfold defaultTTL
      rcases hl : c.l1Cache with _ | l1
      · rfl
      · exact congrArg (some ∘ Prod.snd) (l1.settings_step (.set now key resp.value _)).symm
    · rfl
  · rcases h.linked.held_l1Store he with he | ⟨rfl, hfound, -, hvalue, l1, hl1, hexp⟩
    · exact h.entries k e he
    · refine hG e hfound hvalue ?_
      have hd := h.ttl_le l1.defaultTTL (by rw [defaultTTL, hl1]; rfl)
      rw [hexp, hms, L1Cache.expiry]
      simp
      omega

end

end Client

namespace Clients

/-- A `Get` returns soon after it has been executed, as its request timeout makes it. -/
def Prompt (roundTrip : ℤ) (_ : Clients) : Act → Prop
  | .finish _ _ served _ now => now ≤ served + roundTrip
  | _ => True

/-- At time `t` of the run, a node found the value when it executed a `Get` of the key. -/
def ServedAt (s₀ : Clients) (acts : List Act) (key : Key) (value : Value) (t : Time) : Prop :=
  ∃ before i x after, acts = before ++ .serve i key x t :: after ∧
    (((run step s₀ before).server x).store.get t key).1 = some value

variable {s₀ s : Clients} {acts : List Act} {a : Act} {roundTrip ttl : ℤ}

theorem ServedAt.append {key : Key} {value : Value} {t : Time} (h : ServedAt s₀ acts key value t)
    (a : Act) : ServedAt s₀ (acts ++ [a]) key value t := by
  obtain ⟨before, i, x, after, rfl, hget⟩ := h
  exact ⟨before, i, x, after ++ [a], by simp, hget⟩

/-- The value was on a node before `clock`, and `expiresAt` is not long after that. -/
def Recent (s₀ : Clients) (acts : List Act) (age clock : ℤ) (key : Key) (value : Value)
    (expiresAt : Time) : Prop :=
  ∃ t ≤ clock, ServedAt s₀ acts key value t ∧ expiresAt ≤ t + age

/-- Where the values come from that are in the caches, on their way, and read. -/
structure Sourced (s₀ : Clients) (roundTrip ttl : ℤ) (acts : List Act) (s : Clients) : Prop where
  client : ∀ i, (s.client i).Caches ttl fun k e =>
    Recent s₀ acts (roundTrip + ttl) s.clock k e.value e.expiresAt
  pending : ∀ i k t resp, .answered i k t resp ∈ s.pending → t ≤ s.clock ∧ resp.ttlMs = 0 ∧
    (resp.found = true → ServedAt s₀ acts k resp.value t)
  reads : ∀ r ∈ s.reads, Recent s₀ acts (roundTrip + ttl) r.time r.key r.value r.time

theorem Recent.mono {age clock clock' : ℤ} {key : Key} {value : Value} {expiresAt : Time}
    (h : Recent s₀ acts age clock key value expiresAt) (hc : clock ≤ clock') (a : Act) :
    Recent s₀ (acts ++ [a]) age clock' key value expiresAt := by
  obtain ⟨t, ht, hserved, hexp⟩ := h
  exact ⟨t, ht.trans hc, hserved.append a, hexp⟩

/-- The invariant at a later time, before the step is made. -/
theorem Sourced.tick (h : Sourced s₀ roundTrip ttl acts s) {clock : Time} (hc : s.clock ≤ clock)
    (a : Act) : Sourced s₀ roundTrip ttl (acts ++ [a]) { s with clock } where
  client i := (h.client i).mono fun k e he => he.mono hc a
  pending i k t resp hmem := by
    obtain ⟨ht, hms, hserved⟩ := h.pending i k t resp hmem
    exact ⟨ht.trans hc, hms, fun hf => (hserved hf).append a⟩
  reads r hr := (h.reads r hr).mono le_rfl a

section
variable (h : Sourced s₀ roundTrip ttl acts s)
include h

theorem Sourced.put {i : ℕ} {c : Client}
    (hc : c.Caches ttl fun k e => Recent s₀ acts (roundTrip + ttl) s.clock k e.value e.expiresAt) :
    Sourced s₀ roundTrip ttl acts (s.put i c) where
  client j := by
    show (Function.update s.client i c j).Caches ttl _
    by_cases hj : j = i
    · rw [hj, Function.update_self]
      exact hc
    · rw [Function.update_of_ne hj]
      exact h.client j
  pending := h.pending
  reads := h.reads

theorem Sourced.lookup (i : ℕ) (key : Key) :
    Sourced s₀ roundTrip ttl acts (s.lookup i key s.clock) := by
  have hput := h.put (i := i) ((h.client i).l1Get s.clock key)
  have hfst := (h.client i).linked.l1Get_fst s.clock key
  unfold Clients.lookup
  generalize (s.client i).l1Get s.clock key = r at hput hfst
  obtain ⟨_ | value, c⟩ := r
  · dsimp only
    split
    · exact hput
    · refine ⟨hput.client, fun j k t resp hmem => ?_, hput.reads⟩
      rcases List.mem_append.1 hmem with hmem | hmem
      · exact hput.pending j k t resp hmem
      · cases List.mem_singleton.1 hmem
  · -- the entry that was found has not expired
    refine ⟨hput.client, hput.pending, fun r hr => ?_⟩
    rcases List.mem_append.1 hr with hr | hr
    · exact hput.reads r hr
    · rw [List.mem_singleton.1 hr]
      obtain ⟨e, he, hvalue⟩ := Option.map_eq_some_iff.1 hfst.symm
      obtain ⟨he, hlive⟩ := Option.filter_eq_some_iff.1 he
      obtain ⟨t, ht, hserved, hexp⟩ := (h.client i).entries key e he
      have hlive : ¬ e.expiresAt < s.clock := by simpa using hlive
      exact ⟨t, ht, hvalue ▸ hserved, (not_lt.1 hlive).trans hexp⟩

theorem Sourced.finish {i : ℕ} {key : Key} {served : Time} {resp : GetResponse} (httl : 0 ≤ ttl)
    (hmem : .answered i key served resp ∈ s.pending) (hp : s.clock ≤ served + roundTrip) :
    Sourced s₀ roundTrip ttl acts (s.finish i key served resp s.clock) := by
  obtain ⟨ht, hms, hserved⟩ := h.pending i key served resp hmem
  have hput := h.put (i := i) ((h.client i).l1Store s.clock key hms fun e hfound hvalue hexp =>
    ⟨served, ht, hvalue ▸ hserved hfound, by linarith⟩)
  refine ⟨hput.client, fun j k t resp hmem => ?_, fun r hr => ?_⟩
  · exact hput.pending j k t resp (List.mem_of_mem_erase hmem)
  · simp only [Clients.finish] at hr
    split_ifs at hr with hfound
    · rcases List.mem_append.1 hr with hr | hr
      · exact h.reads r hr
      · rw [List.mem_singleton.1 hr]
        exact ⟨served, ht, hserved hfound, by dsimp only; linarith⟩
    · exact h.reads r hr

end

theorem Sourced.step (h : Sourced s₀ roundTrip ttl acts s) (hs : run step s₀ acts = s)
    (httl : 0 ≤ ttl) (ha : s.Enabled a) (hp : s.Prompt roundTrip a) :
    Sourced s₀ roundTrip ttl (acts ++ [a]) (s.step a) := by
  obtain ⟨hclock, hena⟩ := ha
  have htick := h.tick hclock a
  cases a with
  | lookup i key now => exact htick.lookup i key
  | serve i key x now =>
    simp only [Clients.step, Clients.serve]
    split
    · rename_i resp sends server hh
      have hserve := CacheServer.handle_get_found (congrArg Prod.fst hh)
      refine ⟨htick.client, fun j k t resp' hmem => ?_, htick.reads⟩
      rcases List.mem_append.1 hmem with hmem | hmem
      · exact htick.pending j k t resp' (List.mem_of_mem_erase hmem)
      · cases List.mem_singleton.1 hmem
        refine ⟨le_rfl, hserve.1, fun hfound => ⟨acts, i, x, [], rfl, ?_⟩⟩
        rw [hs]
        exact hserve.2 hfound
    · exact htick
  | finish i key served resp now => exact htick.finish httl hena hp
  | fail get =>
    exact ⟨htick.client, fun j k t resp hmem => htick.pending j k t resp (List.mem_of_mem_erase hmem),
      htick.reads⟩
  | invalidate i key => exact htick.put ((htick.client i).l1Delete key)
  | close i => exact htick.put (htick.client i).close
  | event x e => exact ⟨htick.client, htick.pending, htick.reads⟩

theorem run_sourced {client : ℕ → Client} {server : NodeID → CacheServer} {clock : Time}
    (hclient : ∀ i, (client i).Caches ttl fun _ _ => False) (httl : 0 ≤ ttl) (acts : List Act)
    (hacts : Along step (fun s a => s.Enabled a ∧ s.Prompt roundTrip a) (start client server clock)
      acts) :
    Sourced (start client server clock) roundTrip ttl acts
      (run step (start client server clock) acts) := by
  induction acts using List.reverseRecOn with
  | nil =>
    refine ⟨fun i => (hclient i).mono fun _ _ he => he.elim, fun _ _ _ _ hmem => ?_, fun r hr => ?_⟩
    · exact absurd hmem List.not_mem_nil
    · exact absurd hr List.not_mem_nil
  | append_singleton acts a ih =>
    obtain ⟨hbefore, hstep, -⟩ := along_append.1 hacts
    rw [run_append]
    exact (ih hbefore).step rfl httl hstep.1 hstep.2

/-- **Reads are recent.**  Let clients with empty caches, whose TTL is at most `ttl`, read and write
    concurrently, let anything happen to the nodes, and let every `Get` return within `roundTrip` of
    its execution.  Then a value that a client reads, from its cache or not, was found by a node that
    executed a `Get` of the key at most `roundTrip + ttl` before. -/
theorem reads_are_recent (client : ℕ → Client) (server : NodeID → CacheServer) (clock : Time)
    (roundTrip ttl : ℤ) (httl : 0 ≤ ttl) (hclient : ∀ i, (client i).Caches ttl fun _ _ => False)
    (acts : List Act)
    (hacts : Along step (fun s a => s.Enabled a ∧ s.Prompt roundTrip a) (start client server clock)
      acts) :
    ∀ r ∈ (run step (start client server clock) acts).reads, ∃ t ≤ r.time,
      ServedAt (start client server clock) acts r.key r.value t ∧ r.time ≤ t + (roundTrip + ttl) :=
  (run_sourced hclient httl acts hacts).reads

theorem hotClient_caches : hotClient.Caches 5000000000 fun _ _ => False where
  linked := hotClient_linked
  ttl_le d hd := by
    obtain rfl := Option.some.inj hd
    decide
  entries k e he := by cases he

/-- Client 0 reads a hot key, which another client then overwrites, and reads it again. -/
def overwritten : List Act :=
  [.event (ascii ['a']) (.call 0 (.request (.set ⟨[1], [7], 0⟩))), .lookup 0 [1] 1,
    .serve 0 [1] (ascii ['a']) 2, .finish 0 [1] 2 ⟨[1], [7], true, 0, true⟩ 3,
    .event (ascii ['a']) (.call 4 (.request (.set ⟨[1], [8], 0⟩))), .lookup 0 [1] 5]

/-- The second read finds the old value, in the cache. -/
theorem reads_are_recent_overwritten :
    (run step (start (fun _ => hotClient) (fun _ => hotServer) 0) overwritten).reads =
        [⟨0, [1], [7], 3⟩, ⟨0, [1], [7], 5⟩] ∧
      ∃ t ≤ 5, ServedAt (start (fun _ => hotClient) (fun _ => hotServer) 0) overwritten [1] [7] t ∧
        5 ≤ t + (1 + 5000000000) := by
  have hreads : (run step (start (fun _ => hotClient) (fun _ => hotServer) 0) overwritten).reads =
      [⟨0, [1], [7], 3⟩, ⟨0, [1], [7], 5⟩] := by decide +kernel
  refine ⟨hreads, ?_⟩
  refine reads_are_recent (fun _ => hotClient) (fun _ => hotServer) 0 1 5000000000 (by decide)
    (fun _ => hotClient_caches) overwritten ?_ ⟨0, [1], [7], 5⟩ (by rw [hreads]; decide)
  refine Along.and (by decide +kernel) ?_
  exact ⟨trivial, trivial, trivial, (by decide : (3 : ℤ) ≤ 2 + 1), trivial, trivial, trivial⟩

end Clients

end DistCache
