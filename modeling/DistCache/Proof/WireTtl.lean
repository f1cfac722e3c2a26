/-
  Lifetimes on the wire.

  A duration is sent as a number of milliseconds, truncated, and zero means that there is no
  expiry.  The receiver multiplies it by a million, in signed 64 bits.  So a duration below a
  millisecond becomes unlimited (`finite_lifetime_iff`), and so does, or becomes shorter, a
  number of milliseconds above `9223372036854` (`wire_ttl_iff`).
-/
import DistCache.Service
import DistCache.Proof.Expiry
import DistCache.Proof.Ownership
import DistCache.Proof.Scan
import DistCache.Proof.Views

namespace DistCache

open CacheServer

/-! ## Received TTLs -/

/-- The call writes an entry with the TTL `ms`: a `Set` or an `Expire` of a live key that is not
    forwarded, or a replicated write. -/
inductive GivesTtl (cs : CacheServer) (now : Time) : ServerCall → Key → Int64 → Prop where
  | set {req : SetRequest} (hserved : ∀ p, (cs.handle now (.set req)).1 ≠ .proxy p) :
      GivesTtl cs now (.request (.set req)) req.key req.ttlMs
  | expire {req : ExpireRequest} (hserved : ∀ p, (cs.handle now (.expire req)).1 ≠ .proxy p)
      {e : Entry} (he : cs.store.entry req.key = some e) (hx : e.isExpired now = false) :
      GivesTtl cs now (.request (.expire req)) req.key req.ttlMs
  | replicate {req : ReplicateRequest} (hop : req.op = .set) :
      GivesTtl cs now (.replicate req) req.key req.ttlMs

section
variable {cs : CacheServer} {now : Time}

theorem handle_eq_serve {req : Request} (h : ∀ p, (cs.handle now req).1 ≠ .proxy p) :
    cs.handle now req = cs.serve now req := by
  refine cs.handle_serve now req ?_
  rcases hf : cs.forwardTarget req.serves req.key with _ | p
  · rfl
  · exact absurd (congrArg Prod.fst (cs.handle_proxy now req hf)) (h p)

theorem entry_serve_expire {key : Key} {ms : Int64} {e : Entry} (he : cs.store.entry key = some e)
    (hx : e.isExpired now = false) :
    (cs.serve now (.expire ⟨key, ms⟩)).2.store.entry key =
      some ⟨e.value, Store.expiryOf now (ttlOfMs ms)⟩ := by
  refine (cs.entry_serveExpire now ⟨key, ms⟩ key).trans ?_
  rw [cs.store.entry_expire, if_pos rfl, he]
  simp [hx]

theorem GivesTtl.entry {call : ServerCall} {key : Key} {ms : Int64}
    (h : GivesTtl cs now call key ms) :
    ∃ value, (cs.call now call).store.entry key =
      some ⟨value, Store.expiryOf now (ttlOfMs ms)⟩ := by
  cases h with
  | @set req hserved =>
    refine ⟨req.value, ?_⟩
    show (cs.handle now (.set req)).2.store.entry req.key = _
    rw [handle_eq_serve hserved]
    exact (cs.entry_serve_set now (spares_self req.key) req.value req.ttlMs).trans (if_pos rfl)
  | @expire req hserved e he hx =>
    refine ⟨e.value, ?_⟩
    show (cs.handle now (.expire req)).2.store.entry req.key = _
    rw [handle_eq_serve hserved]
    exact entry_serve_expire he hx
  | @replicate req hop =>
    refine ⟨req.value, ?_⟩
    show (cs.replicate now req).store.entry req.key = _
    rw [CacheServer.replicate, hop]
    exact (Store.entry_set _ _ _ _ _ _).trans (if_pos rfl)

end

/-- **When a received TTL is honoured.**  A positive `TtlMs` in a `Set`, in an `Expire` of a live
    key or in a replicated write gives the entry the expiry that many milliseconds after the
    current time, exactly if it is at most `9223372036854`; otherwise the entry is persistent or
    expires earlier. -/
theorem wire_ttl_iff (cs : CacheServer) (now : Time) (call : ServerCall) (key : Key) (ms : Int64)
    (hms : 0 < ms) (h : GivesTtl cs now call key ms) :
    ∃ e, (cs.call now call).store.entry key = some e ∧
      (e.expiresAt = some (now + ms.toInt * 1000000) ↔ ms.toInt ≤ 9223372036854) ∧
      ((∃ t, e.expiresAt = some t ∧ now + ms.toInt * 1000000 ≤ t) ↔
        ms.toInt ≤ 9223372036854) := by
  obtain ⟨value, hentry⟩ := h.entry
  refine ⟨_, hentry, ?_⟩
  have hexact : ms.toInt ≤ 9223372036854 →
      Store.expiryOf now (ttlOfMs ms) = some (now + ms.toInt * 1000000) := by
    intro hle
    have httl := toInt_ttlOfMs hms hle
    have hpos : 0 < ttlOfMs ms := by
      have := toInt_pos.2 hms
      rw [← toInt_pos, httl]
      omega
    rw [Store.expiryOf, if_pos hpos, httl]
  have hlate : ∀ t, Store.expiryOf now (ttlOfMs ms) = some t → now + ms.toInt * 1000000 ≤ t →
      ms.toInt ≤ 9223372036854 := by
    intro t ht hle
    have hlt := (ttlOfMs ms).toInt_lt
    simp only [Store.expiryOf] at ht
    split_ifs at ht
    obtain rfl := Option.some.inj ht
    have hle' : ms.toInt * 1000000 ≤ (ttlOfMs ms).toInt := le_of_add_le_add_left hle
    omega
  refine ⟨⟨fun he => hlate _ he le_rfl, hexact⟩, ?_, fun hle => ⟨_, hexact hle, le_rfl⟩⟩
  rintro ⟨t, ht, hle⟩
  exact hlate t ht hle

/-- A TTL of ten milliseconds. -/
theorem wire_ttl_ten :
    ∃ e, (hotServer.call 0 (.replicate ⟨[1], [7], 10, 1, [], .set⟩)).store.entry [1] = some e ∧
      e.expiresAt = some (0 + 10 * 1000000) := by
  obtain ⟨e, he, hiff, -⟩ := wire_ttl_iff hotServer 0 (.replicate ⟨[1], [7], 10, 1, [], .set⟩) [1] 10
    (by decide) (.replicate rfl)
  exact ⟨e, he, hiff.2 (by decide)⟩

/-- One millisecond above the limit, the product is negative and the entry is persistent. -/
theorem wire_ttl_wraps :
    (hotServer.call 0 (.replicate ⟨[1], [7], 9223372036855, 1, [], .set⟩)).store.entry [1] =
      some ⟨[7], none⟩ := by
  decide +kernel

/-! ## Sent durations -/

/-- The expiry `x` is no later than `t`, and less than a millisecond earlier. -/
def KeepsExpiry (t : Time) (x : Option Time) : Prop := ∃ t', x = some t' ∧ t' ≤ t ∧ t < t' + 1000000

/-- The expiry that a duration gets on the other side. -/
theorem expiryOf_milliseconds {d : Duration} (hd : 0 ≤ d.toInt) (now : Time) :
    Store.expiryOf now (ttlOfMs d.milliseconds) =
      if d.toInt < 1000000 then none else some (now + d.toInt / 1000000 * 1000000) := by
  have hms := toInt_ttlOfMs_milliseconds hd
  by_cases hlt : d.toInt < 1000000
  · have hnot : ¬ 0 < ttlOfMs d.milliseconds := by
      rw [← toInt_pos, hms]
      omega
    rw [Store.expiryOf, if_neg hnot, if_pos hlt]
  · have hpos : 0 < ttlOfMs d.milliseconds := by
      rw [← toInt_pos, hms]
      omega
    rw [Store.expiryOf, if_pos hpos, if_neg hlt, hms]

theorem keepsExpiry_iff {d : Duration} (hd : 0 ≤ d.toInt) {now t : ℤ} (hle : now + d.toInt ≤ t) :
    KeepsExpiry t (Store.expiryOf now (ttlOfMs d.milliseconds)) ↔
      1000000 ≤ d.toInt ∧ t < now + d.toInt / 1000000 * 1000000 + 1000000 := by
  rw [expiryOf_milliseconds hd]
  split_ifs with hlt
  · refine iff_of_false ?_ fun h => by omega
    rintro ⟨t', ht', -⟩
    exact nomatch ht'
  · constructor
    · rintro ⟨t', ht', -, hlt'⟩
      obtain rfl := Option.some.inj ht'
      exact ⟨not_lt.1 hlt, hlt'⟩
    · rintro ⟨-, hlt'⟩
      have hle' : now + d.toInt / 1000000 * 1000000 ≤ t := by omega
      exact ⟨_, rfl, hle', hlt'⟩

theorem toInt_timeSub {t now : ℤ} (h : now ≤ t) :
    (timeSub t now).toInt = min (2 ^ 63 - 1) (t - now) := by
  rw [timeSub, Int64.toInt_ofInt_of_le]
  · omega
  · omega
  · omega

/-- The remaining lifetime of an entry, sent by a scan. -/
theorem keepsExpiry_timeSub_iff {t now : ℤ} (h : now ≤ t) :
    KeepsExpiry t (Store.expiryOf now (ttlOfMs (timeSub t now).milliseconds)) ↔
      1000000 ≤ t - now ∧ t - now < 9223372036855000000 := by
  have hsub := toInt_timeSub h
  rw [keepsExpiry_iff (by omega) (by omega), hsub]
  omega

/-- **When a finite lifetime stays finite across the wire.**

    A `Set` of a client with a positive TTL that returns leaves an entry whose expiry is at most
    the TTL later than the current time, and less than a millisecond earlier than that, exactly
    if the TTL is at least a millisecond.

    A scan sends an entry that is not expired to every secondary of its key, and what a receiver
    stores has an expiry no later than the original one and less than a millisecond earlier, exactly
    if the remaining lifetime is at least a millisecond and below the range of durations, rounded
    up to milliseconds. -/
theorem finite_lifetime_iff (c : Client) (cs : CacheServer) (rpc : Rpc) (time : Timing)
    (ttl : Duration) (rm : ReplicationManager) (ring : Ring) (ord : RangeOrder Key Entry)
    (s : Store) (now t : Time) (key : Key) (value : Value) :
    (0 < ttl → (c.set cs rpc time key value ttl).1 = .ok () →
      ∃ x, (c.set cs rpc time key value ttl).2.2.store.entry key = some ⟨value, x⟩ ∧
        (KeepsExpiry (time.serve + ttl.toInt) x ↔ 1000000 ≤ ttl.toInt)) ∧
    (s.Reached → s.entry key = some ⟨value, some t⟩ →
      Entry.isExpired ⟨value, some t⟩ now = false →
      (rm.isPrimary ring key = true → ∀ z ∈ rm.getSecondaries ring key,
        ∃ send ∈ (rm.reReplicateForDeadNode ring ord s now).2,
          send.nodeID = z ∧ send.req.key = key) ∧
      ∀ send ∈ (rm.reReplicateForDeadNode ring ord s now).2, send.req.key = key →
        ∀ receiver : CacheServer,
          ∃ x, (receiver.replicate now send.req).store.entry key = some ⟨value, x⟩ ∧
            (KeepsExpiry t x ↔ 1000000 ≤ t - now ∧ t - now < 9223372036855000000)) := by
  constructor
  · intro hpos hset
    have hd : 0 < ttl.toInt := toInt_pos.2 hpos
    refine ⟨Store.expiryOf time.serve (ttlOfMs ttl.milliseconds), ?_, ?_⟩
    · rw [Client.set_ok hset]
      exact (cs.entry_serve_set _ (spares_self key) value _).trans (if_pos rfl)
    · rw [keepsExpiry_iff hd.le (le_refl (time.serve + ttl.toInt))]
      have hround : ttl.toInt < ttl.toInt / 1000000 * 1000000 + 1000000 := by omega
      refine and_iff_left ?_
      rw [add_assoc]
      exact add_lt_add_right hround time.serve
  · intro hs he hx
    have hle : now ≤ t := not_lt.1 (of_decide_eq_false hx)
    obtain ⟨-, hcarried, hsent⟩ := reReplicate_spec rm ring ord s now
    have hvisit : (key, value, timeSub t now) ∈ s.visits ord now :=
      (Store.Placed.mem_visits s now key hs.placed).2 ⟨_, he, hx, rfl, rfl⟩
    constructor
    · intro hp z hz
      obtain ⟨send, hsend, hnode, -, -, seq, hreq⟩ := hsent _ hvisit hp z hz
      exact ⟨send, hsend, hnode, by rw [hreq]⟩
    · intro send hsend hkey receiver
      obtain ⟨⟨key', value', ttl⟩, hv, -, -, seq, hreq⟩ := hcarried send hsend
      obtain rfl : key' = key := by rw [← hkey, hreq]
      -- the entry visited is the one of the key
      obtain ⟨e, he', -, hvalue, httl⟩ := (Store.Placed.mem_visits s now key' hs.placed).1 hv
      rw [he] at he'
      obtain rfl := Option.some.inj he'
      subst hvalue httl
      refine ⟨_, ?_, keepsExpiry_timeSub_iff hle⟩
      rw [CacheServer.replicate, hreq]
      exact (Store.entry_set _ _ _ _ _ _).trans (if_pos rfl)

/-- A store with one entry, which expires after two and a half milliseconds. -/
def shortStore : Store := (Store.newWithShards 1).set 0 [1] [7] 2500000

/-- A lifetime of two and a half milliseconds loses half a millisecond, in a `Set` of a client and
    in a scan. -/
theorem finite_lifetime_two :
    (∃ x, (hotClient.set hotServer .answered ⟨0, 0, 0⟩ [1] [7] 2500000).2.2.store.entry [1] =
      some ⟨[7], x⟩ ∧ KeepsExpiry (0 + 2500000) x) ∧
    ∃ send ∈ (ReplicationManager.reReplicateForDeadNode (.new (ascii ['a']) 2) Ring.abRing default
        shortStore 0).2,
      ∃ x, (hotServer.replicate 0 send.req).store.entry [1] = some ⟨[7], x⟩ ∧
        KeepsExpiry 2500000 x := by
  obtain ⟨hset, hscan⟩ := finite_lifetime_iff hotClient hotServer .answered ⟨0, 0, 0⟩ 2500000
    (.new (ascii ['a']) 2) Ring.abRing default shortStore 0 2500000 [1] [7]
  constructor
  · obtain ⟨x, hx, hiff⟩ := hset (by decide) (by decide +kernel)
    exact ⟨x, hx, hiff.2 (by decide)⟩
  · obtain ⟨hsent, hstored⟩ := hscan ⟨1, [.set 0 [1] [7] 2500000], rfl⟩ (by decide +kernel)
      (by decide)
    obtain ⟨send, hsend, -, hkey⟩ := hsent (by decide +kernel) (ascii ['b']) (by decide +kernel)
    obtain ⟨x, hx, hiff⟩ := hstored send hsend hkey hotServer
    exact ⟨send, hsend, x, hx, hiff.2 (by decide)⟩

/-- A TTL of half a millisecond is stored as no expiry at all. -/
theorem finite_lifetime_lost :
    (hotClient.set hotServer .answered ⟨0, 0, 0⟩ [1] [7] 500000).1 = .ok () ∧
      (hotClient.set hotServer .answered ⟨0, 0, 0⟩ [1] [7] 500000).2.2.store.entry [1] =
        some ⟨[7], none⟩ := by
  decide +kernel

end DistCache
