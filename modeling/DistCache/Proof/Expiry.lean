/-
  How long a client sees a value that expires.

  After `Set(k, v, ttl)` the server has `k` until its expiry, and no longer
  (`Expiring.stored`).  The client-side cache has its own expiry: a copy lives for the default TTL
  of the cache from the moment it is stored, since the server never sends `TtlMs`.  So
  a `Get` finds `k` after its expiry exactly if the cache still has such a copy.
-/
import DistCache.Lib.Run
import DistCache.Proof.Client

namespace DistCache

open Lib CacheServer

/-! ## Durations on the wire -/

theorem toInt_millisecond : millisecond.toInt = 1000000 := by decide

theorem toInt_milliseconds {d : Duration} (hd : 0 ≤ d.toInt) :
    d.milliseconds.toInt = d.toInt / 1000000 := by
  have hlt := d.toInt_lt
  rw [Duration.milliseconds, Int64.toInt_div, toInt_millisecond, Int.tdiv_eq_ediv_of_nonneg hd]
  refine Int.bmod_eq_of_le ?_ ?_
  · omega
  · omega

/-- A number of milliseconds whose nanoseconds are in the range of a duration. -/
theorem toInt_ttlOfMs {ms : Int64} (hpos : 0 < ms) (hms : ms.toInt ≤ 9223372036854) :
    (ttlOfMs ms).toInt = ms.toInt * 1000000 := by
  have hpos' := toInt_pos.2 hpos
  rw [ttlOfMs, if_pos hpos, Int64.toInt_mul, toInt_millisecond]
  refine Int.bmod_eq_of_le ?_ ?_
  · omega
  · omega

/-- A duration that is sent as `TtlMs` loses less than a millisecond, and is lost below
    one. -/
theorem toInt_ttlOfMs_milliseconds {d : Duration} (hd : 0 ≤ d.toInt) :
    (ttlOfMs d.milliseconds).toInt = d.toInt / 1000000 * 1000000 := by
  have hlt := d.toInt_lt
  have hms := toInt_milliseconds hd
  by_cases hpos : 0 < d.milliseconds
  · rw [toInt_ttlOfMs hpos (by omega), hms]
  · have hzero : d.toInt / 1000000 = 0 := by
      rw [← toInt_pos, hms] at hpos
      omega
    rw [ttlOfMs, if_neg hpos, hzero]
    rfl

/-- A whole number of milliseconds survives the conversion to `TtlMs` and back. -/
theorem ttlOfMs_milliseconds {ttl : Duration} (hpos : 0 < ttl) (hms : ttl.toInt % 1000000 = 0) :
    ttlOfMs ttl.milliseconds = ttl := by
  rw [← Int64.toInt_inj, toInt_ttlOfMs_milliseconds (toInt_pos.2 hpos).le]
  omega

namespace Client

/-- The call found nothing. -/
def NotFound (r : Except ClientError (Value × Bool)) : Prop := ∀ value, r ≠ .ok (value, true)

/-- The call does not write `k` on the server: it reads, or writes another key, or is not
    executed; nor is `k` a shard copy of its key. -/
def Call.Keeps (k : Key) (call : Call) : Prop :=
  Spares call.op.key k ∧
    match call.op with
    | .get _ => True
    | .set key _ _ => key = k → call.rpc = .lost
    | .delete key => key = k → call.rpc = .lost

/-- A `Get` that stores `k` in the cache does so at least the default TTL before `limit`. -/
def FillsBy (k : Key) (limit : Time) (s : Client × CacheServer) (call : Call) : Prop :=
  call.op = .get k → (s.1.l1Get call.timing.start k).1 = none → ∀ resp,
    ((s.1.l1Get call.timing.start k).2.ask s.2 call.rpc call.timing.serve (.get ⟨k⟩)).1 =
      .ok (.get resp) → resp.found = true → resp.isHot = true →
      ∀ l1 ∈ (s.1.l1Get call.timing.start k).2.l1Cache,
        call.timing.finish + l1.defaultTTL.toInt ≤ limit

/-- The server has `k` with value `v` until `expiry`, or not at all. -/
structure Expiring (k : Key) (v : Value) (expiry : Time) (s : Client × CacheServer) : Prop where
  single : Single s.2
  linked : s.1.Linked
  stored : ∀ e, s.2.store.entry k = some e → e = ⟨v, some expiry⟩

/-! ## One call -/

theorem ask_snd (c : Client) (cs : CacheServer) (rpc : Rpc) (now : Time) (req : Request) :
    (c.ask cs rpc now req).2 = cs ∨ (c.ask cs rpc now req).2 = (cs.invoke rpc now req).2 := by
  unfold ask
  split
  · exact Or.inl rfl
  · rcases cs.invoke rpc now req with ⟨_ | resp, cs'⟩
    · exact Or.inr rfl
    · exact Or.inr rfl

theorem ask_ok {c : Client} {cs : CacheServer} {rpc : Rpc} {now : Time} {req : Request}
    {resp : Response} (h : (c.ask cs rpc now req).1 = .ok resp) :
    (cs.invoke rpc now req).1 = some resp ∧ (c.ask cs rpc now req).2 = (cs.invoke rpc now req).2 := by
  revert h
  unfold ask
  split
  · rintro ⟨⟩
  · rcases cs.invoke rpc now req with ⟨_ | resp', cs'⟩
    · rintro ⟨⟩
    · rintro ⟨⟩
      exact ⟨rfl, rfl⟩

section
variable {k : Key} {v : Value} {expiry limit : Time} {s : Client × CacheServer}

/-- What `Get` leaves: the cache after its lookup, or after storing an answer. -/
theorem get_cases (c : Client) (cs : CacheServer) (rpc : Rpc) (t : Timing) (key : Key) :
    let c' := (c.l1Get t.start key).2
    (c.get cs rpc t key).2 = (c', cs) ∨
      (c.l1Get t.start key).1 = none ∧
        ((c.get cs rpc t key).2 = (c', (c'.ask cs rpc t.serve (.get ⟨key⟩)).2) ∨
          ∃ resp, (c'.ask cs rpc t.serve (.get ⟨key⟩)).1 = .ok (.get resp) ∧
            (c.get cs rpc t key).2 =
              (c'.l1Store t.finish key resp, (c'.ask cs rpc t.serve (.get ⟨key⟩)).2)) := by
  unfold get
  rcases c.l1Get t.start key with ⟨_ | value, c'⟩
  · refine Or.inr ⟨rfl, ?_⟩
    dsimp only
    rcases c'.ask cs rpc t.serve (.get ⟨key⟩) with ⟨err | resp, cs'⟩
    · exact Or.inl rfl
    · cases resp with
      | get resp => exact Or.inr ⟨resp, rfl, rfl⟩
      | set resp => exact Or.inl rfl
      | delete resp => exact Or.inl rfl
      | expire resp => exact Or.inl rfl
  · exact Or.inl rfl

theorem set_snd (c : Client) (cs : CacheServer) (rpc : Rpc) (t : Timing) (key : Key) (value : Value)
    (ttl : Duration) : (c.set cs rpc t key value ttl).2 = (c.l1Delete key,
      ((c.l1Delete key).ask cs rpc t.serve (.set ⟨key, value, ttl.milliseconds⟩)).2) := by
  simp only [set]
  rcases (c.l1Delete key).ask cs rpc t.serve (.set ⟨key, value, ttl.milliseconds⟩) with
    ⟨err | resp, cs'⟩ <;> rfl

theorem delete_snd (c : Client) (cs : CacheServer) (rpc : Rpc) (t : Timing) (key : Key) :
    (c.delete cs rpc t key).2 = (c.l1Delete key,
      ((c.l1Delete key).ask cs rpc t.serve (.delete ⟨key⟩)).2) := by
  simp only [delete]
  rcases (c.l1Delete key).ask cs rpc t.serve (.delete ⟨key⟩) with ⟨err | resp, cs'⟩
  · rfl
  · cases resp <;> rfl

/-- A request that does not write `k` keeps it expiring. -/
theorem Expiring.ask (h : Expiring k v expiry s) (c : Client) {rpc : Rpc} {now : Time}
    {req : Request} (hreq : rpc ≠ .lost → ∀ e, (s.2.serve now req).2.store.entry k = some e →
      s.2.store.entry k = some e) {c' : Client} (hc : c'.Linked) :
    Expiring k v expiry (c', (c.ask s.2 rpc now req).2) := by
  rcases c.ask_snd s.2 rpc now req with ha | ha
  · rw [ha]; exact ⟨h.single, hc, h.stored⟩
  · rw [ha]
    refine ⟨h.single.invoke _ _ _, hc, fun e he => h.stored e ?_⟩
    rw [h.single.invoke_snd] at he
    split_ifs at he with hl
    · exact he
    · exact hreq hl e he

theorem Expiring.step (h : Expiring k v expiry s) {call : Call} (hk : call.Keeps k) :
    Expiring k v expiry (step s call) := by
  obtain ⟨op, rpc, t⟩ := call
  obtain ⟨hspares, hkeeps⟩ := hk
  cases op with
  | get key =>
    have hreq : rpc ≠ .lost → ∀ e,
        (s.2.serve t.serve (.get ⟨key⟩)).2.store.entry k = some e →
          s.2.store.entry k = some e := by
      intro _ e he
      rcases entry_serveGet s.2 t.serve hspares with hs | hs
      · exact hs.symm.trans he
      · exact absurd (hs.symm.trans he) (by simp)
    have hlinked : (s.1.l1Get t.start key).2.Linked := h.linked.l1Get
    show Expiring k v expiry (s.1.get s.2 rpc t key).2
    rcases s.1.get_cases s.2 rpc t key with hg | ⟨-, hg | ⟨resp, -, hg⟩⟩
    · rw [hg]; exact ⟨h.single, hlinked, h.stored⟩
    · rw [hg]; exact h.ask _ hreq hlinked
    · rw [hg]; exact h.ask _ hreq (hlinked.l1Store resp)
  | set key value ttl =>
    show Expiring k v expiry (s.1.set s.2 rpc t key value ttl).2
    rw [set_snd]
    refine h.ask _ (fun hl e he => ?_) h.linked.l1Delete
    have hne : k ≠ key := fun hk => hl (hkeeps hk.symm)
    have hspares : Spares key k := hspares
    rw [s.2.entry_serve_set t.serve hspares, if_neg hne] at he
    exact he
  | delete key =>
    show Expiring k v expiry (s.1.delete s.2 rpc t key).2
    rw [delete_snd]
    refine h.ask _ (fun hl e he => ?_) h.linked.l1Delete
    have hne : k ≠ key := fun hk => hl (hkeeps hk.symm)
    rw [s.2.entry_serve_delete, if_neg hne] at he
    exact he

/-- The copy of `k` in the cache expires by `limit`. -/
def CachedBy (k : Key) (limit : Time) (s : Client × CacheServer) : Prop :=
  ∀ e, s.1.held k = some e → e.expiresAt ≤ limit

theorem CachedBy.step (h : CachedBy k limit s) (hs : Expiring k v expiry s) {call : Call}
    (hf : FillsBy k limit s call) : CachedBy k limit (step s call) := by
  obtain ⟨op, rpc, t⟩ := call
  have hdelete : ∀ key, CachedBy k limit (s.1.l1Delete key, s.2) := by
    intro key e he
    have hheld : (s.1.l1Delete key).held k = some e := he
    rw [hs.linked.held_l1Delete] at hheld
    split_ifs at hheld
    exact h e hheld
  cases op with
  | get key =>
    have hlookup : ∀ e, (s.1.l1Get t.start key).2.held k = some e → s.1.held k = some e := by
      intro e he
      rw [hs.linked.held_l1Get] at he
      split_ifs at he with hk
      · rw [hk]; exact (Option.filter_eq_some_iff.1 he).1
      · exact he
    intro e he
    have hget : (s.1.get s.2 rpc t key).2.1.held k = some e := he
    rcases s.1.get_cases s.2 rpc t key with hg | ⟨hmiss, hg | ⟨resp, hresp, hg⟩⟩
    · rw [hg] at hget; exact h e (hlookup e hget)
    · rw [hg] at hget; exact h e (hlookup e hget)
    · rw [hg] at hget
      rcases hs.linked.l1Get.held_l1Store hget with hold | ⟨rfl, hfound, hhot, -, l1, hl1, hexp⟩
      · exact h e (hlookup e hold)
      · -- the answer has no TTL, and the cache takes its own
        obtain ⟨isHot, hr⟩ := hs.single.invoke_get (ask_ok hresp).1
        have httl : resp.ttlMs = 0 := by obtain rfl := Response.get.inj hr; rfl
        have hexpiry : l1.expiry t.finish (resp.ttlMs * millisecond) =
            t.finish + l1.defaultTTL.toInt := by
          rw [httl]; rfl
        rw [hexp, hexpiry]
        exact hf rfl hmiss resp hresp hfound hhot l1 hl1
  | set key value ttl =>
    intro e he
    refine hdelete key e ?_
    have hset : (s.1.set s.2 rpc t key value ttl).2.1.held k = some e := he
    rw [set_snd] at hset
    exact hset
  | delete key =>
    intro e he
    refine hdelete key e ?_
    have hdel : (s.1.delete s.2 rpc t key).2.1.held k = some e := he
    rw [delete_snd] at hdel
    exact hdel

/-- After its expiry, a `Get` finds `k` in the cache or not at all. -/
theorem Expiring.notFound_iff (h : Expiring k v expiry s) (rpc : Rpc) {t : Timing}
    (ht : t.start ≤ t.serve) (hlate : expiry < t.start) :
    NotFound (s.1.get s.2 rpc t k).1 ↔ ∀ e, s.1.held k = some e → e.expiresAt < t.start := by
  have hfst := h.linked.l1Get_fst t.start k
  unfold get
  rcases hg : s.1.l1Get t.start k with ⟨_ | value, c'⟩
  · rw [hg] at hfst
    have hdead : ∀ e, s.1.held k = some e → e.expiresAt < t.start := by
      intro e he
      by_contra hlive
      rw [he] at hfst
      simp [Option.filter, hlive] at hfst
    refine iff_of_true ?_ hdead
    intro value
    dsimp only
    rcases ha : c'.ask s.2 rpc t.serve (.get ⟨k⟩) with ⟨err | resp, cs'⟩
    · simp
    · obtain ⟨isHot, rfl⟩ := h.single.invoke_get (ask_ok (congrArg Prod.fst ha)).1
      -- the entry of the server is expired
      have hnone : (s.2.store.get t.serve k).1 = none := by
        rw [s.2.store.get_fst]
        rcases he : s.2.store.entry k with _ | e
        · rfl
        · have hx : expiry < t.serve := lt_of_lt_of_le hlate ht
          rw [h.stored e he]
          simp [Option.filter, Entry.isExpired, hx]
      simp [hnone]
  · rw [hg] at hfst
    obtain ⟨e, he, rfl⟩ := Option.map_eq_some_iff.1 hfst.symm
    obtain ⟨he, hlive⟩ := Option.filter_eq_some_iff.1 he
    refine iff_of_false ?_ ?_
    · intro hn
      exact hn e.value rfl
    · intro hdead
      have := hdead e he
      simp [this] at hlive

end

/-- A `Set` that returns has been served by the server. -/
theorem set_ok {c : Client} {cs : CacheServer} {k : Key} {v : Value} {ttl : Duration} {rpc : Rpc}
    {t : Timing} (hset : (c.set cs rpc t k v ttl).1 = .ok ()) :
    (c.set cs rpc t k v ttl).2 =
      (c.l1Delete k, (cs.serve t.serve (.set ⟨k, v, ttl.milliseconds⟩)).2) := by
  obtain ⟨resp, hask⟩ : ∃ resp, ((c.l1Delete k).ask cs rpc t.serve
      (.set ⟨k, v, ttl.milliseconds⟩)).1 = .ok resp := by
    revert hset
    simp only [set]
    rcases (c.l1Delete k).ask cs rpc t.serve (.set ⟨k, v, ttl.milliseconds⟩) with
      ⟨err | resp, cs'⟩
    · rintro ⟨⟩
    · exact fun _ => ⟨resp, rfl⟩
  obtain ⟨hinvoke, hsnd⟩ := ask_ok hask
  rw [set_snd, hsnd]
  rcases hf : cs.forwardTarget (Request.set ⟨k, v, ttl.milliseconds⟩).serves k with _ | p
  · have hhandle := cs.handle_serve t.serve (.set ⟨k, v, ttl.milliseconds⟩) hf
    unfold invoke at hinvoke ⊢
    rw [hhandle] at hinvoke ⊢
    rcases hs : cs.serve t.serve (.set ⟨k, v, ttl.milliseconds⟩) with ⟨_ | _, cs'⟩
    · exact absurd (congrArg Prod.fst hs) (cs.serve_ne_proxy _ _ _)
    · rw [hs] at hinvoke
      cases rpc with
      | answered => rfl
      | lost => exact nomatch hinvoke
      | unanswered => exact nomatch hinvoke
  · -- a forwarded request is not answered
    have hhandle := cs.handle_proxy t.serve (.set ⟨k, v, ttl.milliseconds⟩) hf
    unfold invoke at hinvoke
    rw [hhandle] at hinvoke
    cases rpc <;> exact nomatch hinvoke

/-- A `Set` that returns leaves its value on the server, until its expiry. -/
theorem expiring_of_set {c : Client} {cs : CacheServer} (hc : c.Linked) (hcs : Single cs) {k : Key}
    {v : Value} {ttl : Duration} (hpos : 0 < ttl) (hms : ttl.toInt % 1000000 = 0) {rpc : Rpc}
    {t : Timing} (hset : (c.set cs rpc t k v ttl).1 = .ok ()) :
    Expiring k v (t.serve + ttl.toInt) (c.set cs rpc t k v ttl).2 := by
  rw [set_ok hset]
  refine ⟨hcs.of_sameWiring (cs.serve_sameWiring _ _), hc.l1Delete, fun e he => ?_⟩
  rw [cs.entry_serve_set _ (spares_self k), if_pos rfl, ttlOfMs_milliseconds hpos hms] at he
  obtain rfl := Option.some.inj he
  simp only [Store.expiryOf, if_pos hpos]

end Client

open Client in
/-- **When the cache of the client outlives the TTL of the server.**  After `Set(k, v, ttl)`
    has returned, and any calls that do not write `k`, a `Get` that starts after the TTL is
    over finds nothing exactly if the copy in the cache, if any, is expired.  This holds if
    every `Get` that stored `k` did so at least the default TTL before. -/
theorem l1_expires_iff {c : Client} {cs : CacheServer} (hc : c.Linked) (hcs : Single cs) {k : Key}
    {v : Value} {ttl : Duration} (hpos : 0 < ttl) (hms : ttl.toInt % 1000000 = 0) {rpc : Rpc}
    {t : Timing} (ht : t.serve ≤ t.finish) (hset : (c.set cs rpc t k v ttl).1 = .ok ())
    (calls : List Client.Call) (hcalls : ∀ call ∈ calls, call.Keeps k) (rpc' : Rpc) {t' : Timing}
    (ht' : t'.start ≤ t'.serve) (hlate : t.finish + ttl.toInt < t'.start) :
    let s := run Client.step (c.set cs rpc t k v ttl).2 calls
    (NotFound (s.1.get s.2 rpc' t' k).1 ↔
      ∀ e, s.1.held k = some e → e.expiresAt < t'.start) ∧
    (Along Client.step (FillsBy k (t.finish + ttl.toInt)) (c.set cs rpc t k v ttl).2 calls →
      NotFound (s.1.get s.2 rpc' t' k).1) := by
  intro s
  have h0 := expiring_of_set hc hcs hpos hms hset
  have hkeeps : Along Client.step (fun _ call => call.Keeps k) (c.set cs rpc t k v ttl).2 calls :=
    Along.of_forall hcalls _
  have hs : Expiring k v (t.serve + ttl.toInt) s :=
    Along.inv (I := Expiring k v (t.serve + ttl.toInt)) (fun s a hi ha => hi.step ha) hkeeps h0
  have hexpiry : t.serve + ttl.toInt < t'.start :=
    lt_of_le_of_lt (add_le_add_left ht ttl.toInt) hlate
  have hiff := hs.notFound_iff rpc' ht' hexpiry
  refine ⟨hiff, fun hfills => hiff.2 ?_⟩
  have hcached : CachedBy k (t.finish + ttl.toInt) (c.set cs rpc t k v ttl).2 := by
    intro e he
    rw [set_snd] at he
    have hnone : (c.l1Delete k).held k = none := by rw [hc.held_l1Delete, if_pos rfl]
    exact absurd (hnone.symm.trans he) (by simp)
  obtain ⟨-, hcached'⟩ := Along.inv
    (I := fun s => Expiring k v (t.serve + ttl.toInt) s ∧ CachedBy k (t.finish + ttl.toInt) s)
    (fun s a hi ha => ⟨hi.1.step ha.1, hi.2.step hi.1 ha.2⟩) (hkeeps.and hfills) ⟨h0, hcached⟩
  intro e he
  exact lt_of_le_of_lt (hcached' e he) hlate

/-- A `Get` of the hot key `[1]` after one second, with copies that live for five. -/
def hotGet : Client.Call := ⟨.get [1], .answered, ⟨1000000000, 1000000000, 1000000000⟩⟩

/-- With a TTL of ten seconds, nothing is found after that. -/
theorem l1_expires_ten_seconds :
    let s := run Client.step (hotClient.set hotServer .answered ⟨0, 0, 0⟩ [1] [7] 10000000000).2
      [hotGet]
    Client.NotFound (s.1.get s.2 .answered ⟨10000000001, 10000000001, 10000000001⟩ [1]).1 := by
  refine (l1_expires_iff hotClient_linked hotServer_single (by decide) (by decide) le_rfl ?_ _ ?_ _
    le_rfl (by decide)).2 ?_
  · decide +kernel
  · intro call hcall
    rw [List.mem_singleton.1 hcall]
    exact ⟨spares_self [1], trivial⟩
  · refine ⟨fun _ _ resp _ _ _ => ?_, trivial⟩
    decide +kernel

/-- With a TTL of two seconds, the copy made after one second is found after three. -/
theorem l1_outlives_two_seconds :
    hotClient.Linked ∧ Single hotServer ∧
    (hotClient.set hotServer .answered ⟨0, 0, 0⟩ [1] [7] 2000000000).1 = .ok () ∧
    hotGet.Keeps [1] ∧
    let s := run Client.step (hotClient.set hotServer .answered ⟨0, 0, 0⟩ [1] [7] 2000000000).2
      [hotGet]
    (s.1.get s.2 .answered ⟨3000000000, 3000000000, 3000000000⟩ [1]).1 = .ok ([7], true) :=
  ⟨hotClient_linked, hotServer_single, by decide +kernel, ⟨spares_self [1], trivial⟩,
    by decide +kernel⟩

end DistCache
