/-
  Bulk transfers.

  Without failures, `TransferKeys` sends every live entry of the store once, whatever range
  is requested (`transferKeys_all`); so a transfer is the requested one only if all live
  keys lie in the range.  With a failure it stops, and still returns `nil`.
-/
import DistCache.Transfer
import DistCache.Proof.Views

namespace DistCache

/-- The ring position of a key lies in the requested range. -/
def TransferKeysRequest.covers (req : TransferKeysRequest) (key : Key) : Prop :=
  req.rangeStart ≤ hashKey key ∧ hashKey key ≤ req.rangeEnd

namespace Store

/-- The pairs are the live keys that meet `p`, each once and with its stored value. -/
def Streams (s : Store) (now : Time) (p : Key → Prop) (pairs : List KeyValuePair) : Prop :=
  (pairs.map KeyValuePair.key).Nodup ∧
    ∀ key value, (∃ ttlMs, ⟨key, value, ttlMs⟩ ∈ pairs) ↔ (s.get now key).1 = some value ∧ p key

/-- The pairs of all entries that `ForEach` visits. -/
def pairs (s : Store) (ord : RangeOrder Key Entry) (now : Time) : List KeyValuePair :=
  (s.visits ord now).map fun v => .ofVisit v.1 v.2.1 v.2.2

theorem get_eq_some (s : Store) (now : Time) {key : Key} {value : Value} :
    (s.get now key).1 = some value ↔
      ∃ e, s.entry key = some e ∧ e.isExpired now = false ∧ e.value = value := by
  rw [s.get_fst, Option.map_eq_some_iff]
  constructor
  · rintro ⟨e, he, hv⟩
    obtain ⟨he, hx⟩ := Option.filter_eq_some_iff.1 he
    exact ⟨e, he, by simpa using hx, hv⟩
  · rintro ⟨e, he, hx, hv⟩
    exact ⟨e, by rw [he, Option.filter_some, hx]; rfl, hv⟩

/-- The visits are the live entries. -/
theorem Placed.streams_pairs {s : Store} (h : s.Placed) (ord : RangeOrder Key Entry) (now : Time) :
    s.Streams now (fun _ => True) (s.pairs ord now) := by
  refine ⟨?_, fun key value => ?_⟩
  · have hkeys : (s.pairs ord now).map KeyValuePair.key = (s.visits ord now).map Prod.fst := by
      rw [pairs, List.map_map]
      rfl
    rw [hkeys, visits_fst]
    exact scan_nodup h
  · rw [get_eq_some, and_true]
    constructor
    · rintro ⟨ttlMs, hmem⟩
      obtain ⟨⟨key', value', ttl⟩, hv, he⟩ := List.mem_map.1 hmem
      simp only [KeyValuePair.ofVisit, KeyValuePair.mk.injEq] at he
      obtain ⟨rfl, rfl, -⟩ := he
      obtain ⟨e, he, hx, hval, -⟩ := (Placed.mem_visits s now key' h).1 hv
      exact ⟨e, he, hx, hval⟩
    · rintro ⟨e, he, hx, hval⟩
      exact ⟨_, List.mem_map.2 ⟨_, (Placed.mem_visits s now key h).2 ⟨e, he, hx, hval, rfl⟩, rfl⟩⟩

end Store

namespace CacheServer

section
variable (cs : CacheServer) (ord : RangeOrder Key Entry) (now : Time) (req : TransferKeysRequest)
  (sendErr : ℕ → Option GoString)

/-- Without failures, all entries are sent. -/
theorem transferKeys_all (h : ∀ n < (cs.store.visits ord now).length, sendErr n = none) :
    cs.transferKeys ord now req sendErr = (none, cs.store.pairs ord now) := by
  unfold transferKeys Store.forEach
  rw [Store.forEachLoop_push KeyValuePair.ofVisit (fun n => (sendErr n).isNone) _ _ fun n hn => ?_]
  · rfl
  · rw [List.length_nil, Nat.zero_add, h n hn]
    rfl

/-- The first `Send` that fails is the last one, and `nil` is returned. -/
theorem transferKeys_stops {n : ℕ} (hn : n < (cs.store.visits ord now).length)
    (hok : ∀ m < n, sendErr m = none) (herr : sendErr n ≠ none) :
    cs.transferKeys ord now req sendErr = (none, (cs.store.pairs ord now).take (n + 1)) := by
  unfold transferKeys Store.forEach
  rw [Store.forEachLoop_stop KeyValuePair.ofVisit (fun n => (sendErr n).isNone) n _ _ hn]
  · rw [Store.pairs, ← List.map_take]
    rfl
  · intro m hm
    rw [List.length_nil, Nat.zero_add, hok m hm]
    rfl
  · rw [List.length_nil, Nat.zero_add]
    exact Option.isNone_eq_false_iff.2 (Option.ne_none_iff_isSome.1 herr)

end

/-! ## The requested range -/

/-- **When a transfer is the requested one.**  For every reachable store and every request, if no
    `Send` fails, the keys sent are the live keys of the requested range, each once with its
    value, if and only if all live keys lie in that range. -/
theorem transferKeys_range_iff (cs : CacheServer) (hs : cs.store.Reached)
    (ord : RangeOrder Key Entry) (now : Time) (req : TransferKeysRequest)
    (sendErr : ℕ → Option GoString) (hsend : ∀ n, sendErr n = none) :
    cs.store.Streams now req.covers (cs.transferKeys ord now req sendErr).2 ↔
      ∀ key, (cs.store.get now key).1.isSome = true → req.covers key := by
  rw [cs.transferKeys_all ord now req sendErr fun n _ => hsend n]
  obtain ⟨hnodup, hlive⟩ := hs.placed.streams_pairs ord now
  constructor
  · rintro ⟨-, hrange⟩ key hkey
    obtain ⟨value, hvalue⟩ := Option.isSome_iff_exists.1 hkey
    exact ((hrange key value).1 ((hlive key value).2 ⟨hvalue, trivial⟩)).2
  · intro hall
    refine ⟨hnodup, fun key value => ?_⟩
    rw [hlive key value]
    constructor
    · rintro ⟨hvalue, -⟩
      exact ⟨hvalue, hall key (by rw [hvalue]; rfl)⟩
    · rintro ⟨hvalue, -⟩
      exact ⟨hvalue, trivial⟩

/-- A server whose store has one entry, which expires at `10`. -/
def holder : CacheServer where
  nodeID := []
  store := .tenStore
  ring := .new 1 0
  replicationMgr := none
  hotKeyMitigator := none

/-- The whole ring is requested. -/
theorem transferKeys_range_whole :
    holder.store.Streams 5 (TransferKeysRequest.covers ⟨0, 18446744073709551615, [2]⟩)
      (holder.transferKeys default 5 ⟨0, 18446744073709551615, [2]⟩ fun _ => none).2 := by
  refine (transferKeys_range_iff holder Store.tenStore_reached default 5 _ (fun _ => none)
    fun _ => rfl).2 fun key _ => ?_
  exact ⟨UInt64.zero_le, UInt64.le_iff_toNat_le.2 (Nat.le_pred_of_lt (hashKey key).toNat_lt)⟩

/-- **A key outside the requested range is sent.** -/
theorem transferKeys_outside :
    let req : TransferKeysRequest := ⟨0, 0, [2]⟩
    req.rangeStart ≤ req.rangeEnd ∧ ¬ req.covers [1] ∧
      (∃ ttlMs, ⟨[1], [7], ttlMs⟩ ∈ (holder.transferKeys default 5 req fun _ => none).2) ∧
      ¬ holder.store.Streams 5 req.covers (holder.transferKeys default 5 req fun _ => none).2 := by
  intro req
  have hout : ¬ req.covers [1] := by
    unfold TransferKeysRequest.covers
    decide
  have hsent : ∃ ttlMs, ⟨[1], [7], ttlMs⟩ ∈
      (holder.transferKeys default 5 req fun _ => none).2 := by
    rw [holder.transferKeys_all default 5 req _ fun _ _ => rfl]
    exact ((Store.tenStore_reached.placed.streams_pairs default 5).2 [1] [7]).2
      ⟨by decide, trivial⟩
  refine ⟨by decide, hout, hsent, fun hstreams => hout ?_⟩
  exact ((hstreams.2 [1] [7]).1 hsent).2

/-! ## Failures -/

/-- **When a transfer reports that it is incomplete.**  For every store, instant and outcome of
    the `Send`s: `nil` is returned only if every entry that `ForEach` visits was sent, and an error
    if any `Send` failed, if and only if no `Send` of the visited entries fails. -/
theorem transferKeys_reports_iff (cs : CacheServer) (ord : RangeOrder Key Entry) (now : Time)
    (req : TransferKeysRequest) (sendErr : ℕ → Option GoString) :
    (((cs.transferKeys ord now req sendErr).1 = none →
        (cs.transferKeys ord now req sendErr).2 = cs.store.pairs ord now ∧
          ∀ n < (cs.store.pairs ord now).length, sendErr n = none) ∧
      ((∃ n < (cs.transferKeys ord now req sendErr).2.length, sendErr n ≠ none) →
        (cs.transferKeys ord now req sendErr).1 ≠ none)) ↔
      ∀ n < (cs.store.visits ord now).length, sendErr n = none := by
  have hlen : (cs.store.pairs ord now).length = (cs.store.visits ord now).length :=
    List.length_map _
  constructor
  · rintro ⟨hnil, -⟩
    rw [← hlen]
    exact (hnil rfl).2
  · intro hok
    rw [cs.transferKeys_all ord now req sendErr hok]
    refine ⟨fun _ => ⟨rfl, hlen ▸ hok⟩, ?_⟩
    rintro ⟨n, hn, herr⟩
    exact absurd (hok n (hlen ▸ hn)) herr

theorem holder_visits (ord : RangeOrder Key Entry) : 0 < (holder.store.visits ord 5).length := by
  have hmem : ([1], [7], timeSub 10 5) ∈ holder.store.visits ord 5 :=
    (Store.Placed.mem_visits _ 5 [1] Store.tenStore_reached.placed).2
      ⟨⟨[7], some 10⟩, Store.tenStore_entry [1], by decide, rfl, rfl⟩
  exact List.length_pos_of_mem hmem

/-- All `Send`s succeed. -/
theorem transferKeys_reports_complete :
    (holder.transferKeys default 5 ⟨0, 1, [2]⟩ fun _ => none).2 = holder.store.pairs default 5 :=
  (((transferKeys_reports_iff holder default 5 ⟨0, 1, [2]⟩ fun _ => none).2
    fun _ _ => rfl).1 rfl).1

/-- **The first `Send` fails, and `nil` is returned.** -/
theorem transferKeys_loses_error :
    let sendErr : ℕ → Option GoString := fun _ => some [1]
    let result := holder.transferKeys default 5 ⟨0, 1, [2]⟩ sendErr
    0 < (holder.store.visits default 5).length ∧ result.2.length = 1 ∧ sendErr 0 ≠ none ∧
      result.1 = none := by
  intro sendErr result
  have hvisits := holder_visits default
  refine ⟨hvisits, ?_, by decide, rfl⟩
  have hstop : result = _ := holder.transferKeys_stops default 5 ⟨0, 1, [2]⟩ sendErr hvisits
    (fun m hm => absurd hm (Nat.not_lt_zero m)) (by decide)
  rw [hstop]
  dsimp only
  rw [List.length_take, Store.pairs, List.length_map]
  omega

end CacheServer

end DistCache
