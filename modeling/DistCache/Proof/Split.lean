/-
  Split keys: the entries that a call writes besides that of its own key.

  The names of shard copies determine the key and the number of the copy
  (`shardKeyName_inj`).  A `Get` that splits its key writes to the copies (`splits`), and
  so does a `Set` on a split key (`writesThrough`); nothing else touches another key.
-/
import DistCache.Service
import DistCache.Proof.Names
import DistCache.Proof.Refine
import DistCache.Proof.TtlMap

namespace DistCache

open Lib

/-! ## Live entries -/

namespace Store

variable (s : Store) (now : Time) (key k : Key)

/-- `get_fst`, in terms of the live entry. -/
theorem get_fst_alive : (s.get now key).1 = (alive now (s.entry key)).map Entry.value :=
  s.get_fst now key

theorem entry_get_self : (s.get now key).2.entry key = alive now (s.entry key) := by
  rw [entry_get, if_pos rfl]
  rfl

theorem entry_get_of_ne (hk : k ≠ key) : (s.get now key).2.entry k = s.entry k := by
  rw [entry_get, if_neg hk]

/-- A second read finds what the first one found. -/
theorem get_get_fst : ((s.get now key).2.get now key).1 = (s.get now key).1 := by
  rw [get_fst_alive, entry_get_self, alive_alive le_rfl, get_fst_alive]

end Store

/-! ## The copies of a key -/

namespace Mitigator

variable (mt : Mitigator) (s : Store) (now : Time) {key k : Key}

/-- Splitting writes the live value to the copies. -/
theorem entry_applySplitting_of_ne (hk : k ≠ key) :
    (mt.applySplitting s now key).entry k =
      if mt.Copies key k then ((s.get now key).1.map Store.persistent).or (s.entry k)
      else s.entry k := by
  have hget := s.entry_get_of_ne now key k hk
  unfold applySplitting
  rcases hg : s.get now key with ⟨_ | value, s'⟩
  · rw [hg] at hget
    dsimp only at hget ⊢
    rw [hget]
    split_ifs <;> rfl
  · rw [hg] at hget
    dsimp only at hget ⊢
    rw [entry_setShards, hget]
    rfl

theorem entry_writeToShards_of_ne (hk : k ≠ key) (value : Value) (ttl : Duration) :
    (mt.writeToShards s now key value ttl).entry k =
      if mt.mitigatedKeys.lookup key = some .keySplit ∧ mt.Copies key k then
        some ⟨value, Store.expiryOf now ttl⟩
      else s.entry k := by
  simp only [writeToShards]
  by_cases hs : mt.mitigatedKeys.lookup key = some .keySplit
  · rw [if_pos hs, entry_setShards, Store.entry_set, if_neg hk]
    simp [hs]
  · rw [if_neg hs, Store.entry_set, if_neg hk, if_neg fun h => hs h.1]

end Mitigator

/-! ## What a call writes -/

/-- The call is a `Set`. -/
def ServerCall.IsSet : ServerCall → Prop
  | .request (.set _) => True
  | _ => False

namespace CacheServer

section
variable (cs : CacheServer) (now : Time) (mt : Mitigator)

/-- The entry that a `Get` writes to the copies of its key, because it splits it. -/
def splits : ServerCall → Option Entry
  | .request (.get req) =>
    if cs.forwardTarget (Request.get req).serves req.key = none ∧
        (mt.detector.recordAccess req.key).1 = true ∧ req.key ∉ mt.mitigatedKeys then
      (cs.store.get now req.key).1.map Store.persistent
    else none
  | _ => none

/-- The entry that a `Set` writes to the copies of its key, because that is split. -/
def writesThrough : ServerCall → Option Entry
  | .request (.set req) =>
    if cs.forwardTarget (Request.set req).serves req.key = none ∧
        mt.mitigatedKeys.lookup req.key = some .keySplit then
      some ⟨req.value, Store.expiryOf now (ttlOfMs req.ttlMs)⟩
    else none
  | _ => none

/-- The entry that a call writes to the copies of its key. -/
def copied (a : ServerCall) : Option Entry := (cs.splits now mt a).or (cs.writesThrough now mt a)

end

section
variable {cs : CacheServer} {now : Time} {mt : Mitigator}

/-! ### The mitigator -/

/-- What a call does to the mitigator: it files its key, if it splits it. -/
structure Files (mt mt' : Mitigator) (key : Key) (split : Option Entry) : Prop where
  shardCount : mt'.shardCount = mt.shardCount
  mitigatedKeys : mt'.mitigatedKeys =
    if split.isSome then mt.mitigatedKeys.insert key .keySplit else mt.mitigatedKeys

theorem Files.same (mt : Mitigator) (key : Key) : Files mt mt key none := ⟨rfl, rfl⟩

theorem ifPrimary_mitigator (cs : CacheServer) (key : Key)
    (f : ReplicationManager → ReplicationManager × List Send) :
    (cs.ifPrimary key f).2.hotKeyMitigator = cs.hotKeyMitigator := by
  unfold ifPrimary
  split
  · rfl
  · split_ifs <;> rfl

theorem replicateExpire_mitigator (cs : CacheServer) (now : Time) (req : ExpireRequest) :
    (cs.replicateExpire now req).2.hotKeyMitigator = cs.hotKeyMitigator := by
  unfold replicateExpire
  split
  · rfl
  · split_ifs
    · split <;> rfl
    · rfl

theorem checkHot_eq (hmt : cs.hotKeyMitigator = some mt) (key : Key) :
    ∃ mt', (cs.checkHot now key).2 = { cs with
        hotKeyMitigator := some mt'
        store :=
          if (mt.detector.recordAccess key).1 = true ∧ key ∉ mt.mitigatedKeys then
            mt.applySplitting cs.store now key
          else cs.store } ∧
      mt'.shardCount = mt.shardCount ∧
      mt'.mitigatedKeys =
        if (mt.detector.recordAccess key).1 = true ∧ key ∉ mt.mitigatedKeys then
          mt.mitigatedKeys.insert key .keySplit
        else mt.mitigatedKeys := by
  simp only [checkHot, hmt, Mitigator.checkAndMitigate]
  rcases mt.detector.recordAccess key with ⟨_ | _, detector⟩
  · exact ⟨_, rfl, rfl, rfl⟩
  · by_cases hk : key ∈ mt.mitigatedKeys
    · simp only [hk, not_true_eq_false, and_false, if_false, if_true]
      exact ⟨_, rfl, rfl, rfl⟩
    · simp only [hk, not_false_eq_true, and_true, if_true, if_false]
      exact ⟨_, rfl, rfl, rfl⟩

/-! ### The store -/

/-- **What a call `a` does to a server**: other keys than its own change if they are copies that
    it writes, its own key keeps its live entry if it is split, and gets the entry that is
    written through. -/
structure Wrote (cs cs' : CacheServer) (now : Time) (mt : Mitigator) (a : ServerCall) : Prop where
  other : ∀ k ≠ a.key, cs'.store.entry k =
    if mt.Copies a.key k then (cs.copied now mt a).or (cs.store.entry k) else cs.store.entry k
  files : ∃ mt', cs'.hotKeyMitigator = some mt' ∧ Files mt mt' a.key (cs.splits now mt a)
  split : cs.splits now mt a ≠ none →
    alive now (cs'.store.entry a.key) = alive now (cs.store.entry a.key)
  through : ∀ e, cs.writesThrough now mt a = some e → cs'.store.entry a.key = some e

/-- A call that writes no copies. -/
theorem Wrote.of_own {cs' : CacheServer} {a : ServerCall} (hs : cs.splits now mt a = none)
    (hw : cs.writesThrough now mt a = none)
    (hother : ∀ k ≠ a.key, cs'.store.entry k = cs.store.entry k)
    (hm : ∃ mt', cs'.hotKeyMitigator = some mt' ∧ Files mt mt' a.key none) :
    Wrote cs cs' now mt a where
  other k hk := by
    rw [hother k hk, copied, hs, hw]
    split_ifs <;> rfl
  files := hs ▸ hm
  split h := absurd hs h
  through e he := by
    rw [hw] at he
    cases he

theorem wrote_forwarded {req : Request} {p : NodeID} (hmt : cs.hotKeyMitigator = some mt)
    (hf : cs.forwardTarget req.serves req.key = some p) : Wrote cs cs now mt (.request req) := by
  have hne : cs.forwardTarget req.serves req.key ≠ none := by
    rw [hf]
    exact Option.some_ne_none p
  refine .of_own ?_ ?_ (fun k _ => rfl) ⟨mt, hmt, .same mt _⟩
  · cases req with
    | get req => exact if_neg fun h => hne h.1
    | set | delete | expire => rfl
  · cases req with
    | set req => exact if_neg fun h => hne h.1
    | get | delete | expire => rfl

theorem wrote_get {req : GetRequest} (hmt : cs.hotKeyMitigator = some mt)
    (hf : cs.forwardTarget (Request.get req).serves req.key = none) :
    Wrote cs (cs.serveGet now req).2 now mt (.request (.get req)) := by
  have hself := cs.store.entry_get_self now req.key
  have hother : ∀ k ≠ req.key, (cs.store.get now req.key).2.entry k = cs.store.entry k :=
    fun k hk => cs.store.entry_get_of_ne now req.key k hk
  have hget := cs.store.get_get_fst now req.key
  have hsplits : cs.splits now mt (.request (.get req)) =
      if (mt.detector.recordAccess req.key).1 = true ∧ req.key ∉ mt.mitigatedKeys then
        (cs.store.get now req.key).1.map Store.persistent
      else none := by
    simp only [splits, hf, true_and]
  unfold serveGet
  rcases hg : cs.store.get now req.key with ⟨_ | value, store⟩
  · rw [hg] at hother hsplits
    refine .of_own ?_ rfl hother ⟨mt, hmt, .same mt _⟩
    rw [hsplits]
    split_ifs <;> rfl
  · rw [hg] at hself hother hget hsplits
    obtain ⟨mt', hcheck, hcount, hkeys⟩ := @checkHot_eq { cs with store } now mt hmt req.key
    dsimp only at hself hother hget hsplits ⊢
    rw [hcheck]
    by_cases hsplit : (mt.detector.recordAccess req.key).1 = true ∧ req.key ∉ mt.mitigatedKeys
    · rw [if_pos hsplit] at hkeys hsplits ⊢
      refine ⟨fun k hk => ?_, ⟨mt', rfl, hcount, ?_⟩, fun _ => ?_, fun e he => nomatch he⟩
      · have hk' : k ≠ req.key := hk
        rw [copied, hsplits]
        refine (mt.entry_applySplitting_of_ne store now hk').trans ?_
        rw [hget, hother k hk']
        rfl
      · rw [hkeys, hsplits]
        rfl
      · refine (congrArg _ (mt.entry_applySplitting store now (spares_self req.key))).trans ?_
        rw [Store.entry_get_self, hself, alive_alive le_rfl, alive_alive le_rfl]
        rfl
    · rw [if_neg hsplit] at hkeys hsplits ⊢
      exact .of_own hsplits rfl hother ⟨mt', rfl, hcount, hkeys⟩

theorem wrote_set {req : SetRequest} (hmt : cs.hotKeyMitigator = some mt)
    (hf : cs.forwardTarget (Request.set req).serves req.key = none) :
    Wrote cs (cs.serveSet now req).2 now mt (.request (.set req)) := by
  have hthrough : cs.writesThrough now mt (.request (.set req)) =
      if mt.mitigatedKeys.lookup req.key = some .keySplit then
        some ⟨req.value, Store.expiryOf now (ttlOfMs req.ttlMs)⟩
      else none := by
    simp only [writesThrough, hf, true_and]
  have hown : (cs.serveSet now req).2.store.entry req.key =
      some ⟨req.value, Store.expiryOf now (ttlOfMs req.ttlMs)⟩ := by
    rw [serveSet_store, entry_write _ _ (spares_self req.key), if_pos rfl]
  have hother : ∀ k ≠ req.key, (cs.serveSet now req).2.store.entry k =
      if mt.mitigatedKeys.lookup req.key = some .keySplit ∧ mt.Copies req.key k then
        some ⟨req.value, Store.expiryOf now (ttlOfMs req.ttlMs)⟩
      else cs.store.entry k := by
    intro k hk
    rw [serveSet_store, write, hmt]
    dsimp only
    by_cases hmit : mt.isMitigated req.key = true
    · rw [if_pos hmit, mt.entry_writeToShards_of_ne cs.store now hk]
    · have hnot : mt.mitigatedKeys.lookup req.key ≠ some .keySplit := fun h =>
        hmit (decide_eq_true (Finmap.lookup_isSome.1 (by rw [h]; rfl)))
      rw [if_neg hmit, if_neg fun h => hnot h.1, Store.entry_set, if_neg hk]
  refine ⟨fun k hk => ?_, ⟨mt, (ifPrimary_mitigator _ _ _).trans hmt, .same mt _⟩,
    fun h => absurd rfl h, fun e he => ?_⟩
  · refine (hother k hk).trans ?_
    rw [copied, hthrough]
    by_cases hs : mt.mitigatedKeys.lookup req.key = some .keySplit
    · simp only [hs, true_and, if_true]
      rfl
    · rw [if_neg hs, if_neg fun h => hs h.1]
      split_ifs <;> rfl
  · rw [hthrough] at he
    split_ifs at he
    exact hown.trans he

theorem wrote_delete {req : DeleteRequest} (hmt : cs.hotKeyMitigator = some mt) :
    Wrote cs (cs.serveDelete req).2 now mt (.request (.delete req)) := by
  refine .of_own rfl rfl (fun k hk => ?_) ⟨mt, (ifPrimary_mitigator _ _ _).trans hmt, .same mt _⟩
  rw [serveDelete_store, Store.entry_delete]
  exact if_neg hk

theorem wrote_expire {req : ExpireRequest} (hmt : cs.hotKeyMitigator = some mt) :
    Wrote cs (cs.serveExpire now req).2 now mt (.request (.expire req)) := by
  have hother : ∀ k ≠ req.key,
      (cs.store.expire now req.key (ttlOfMs req.ttlMs)).2.entry k = cs.store.entry k := by
    intro k hk
    rw [Store.entry_expire, if_neg hk]
  unfold serveExpire
  rcases he : cs.store.expire now req.key (ttlOfMs req.ttlMs) with ⟨_ | _, store⟩
  · rw [he] at hother
    exact .of_own rfl rfl hother ⟨mt, hmt, .same mt _⟩
  · rw [he] at hother
    refine .of_own rfl rfl (fun k hk => ?_)
      ⟨mt, (replicateExpire_mitigator _ _ _).trans hmt, .same mt _⟩
    have hread : (CacheServer.replicateExpire { cs with store } now req).2.store.entry k =
        store.entry k :=
      entry_replicateExpire { cs with store } now req (store.entry_get_of_ne now req.key k hk)
    exact hread.trans (hother k hk)

theorem wrote_replicate {req : ReplicateRequest} (hmt : cs.hotKeyMitigator = some mt) :
    Wrote cs (cs.replicate now req) now mt (.replicate req) := by
  refine .of_own rfl rfl (fun k hk => entry_replicate_of_ne hk.symm cs now)
    ⟨mt, Eq.trans ?_ hmt, .same mt _⟩
  unfold replicate
  split <;> rfl

theorem call_wrote (hmt : cs.hotKeyMitigator = some mt) (a : ServerCall) :
    Wrote cs (cs.call now a) now mt a := by
  cases a with
  | replicate req => exact wrote_replicate hmt
  | request req =>
    show Wrote cs (cs.handle now req).2 now mt (.request req)
    rcases hf : cs.forwardTarget req.serves req.key with _ | p
    · rw [cs.handle_serve now req hf]
      cases req with
      | get req => exact wrote_get hmt hf
      | set req => exact wrote_set hmt hf
      | delete req => exact wrote_delete hmt
      | expire req => exact wrote_expire hmt
    · rw [cs.handle_proxy now req hf]
      exact wrote_forwarded hmt hf

end

/-! ### Consequences -/

section
variable {cs cs' : CacheServer} {now : Time} {mt : Mitigator} {a : ServerCall} {k : Key}

/-- A client key other than that of the call keeps its entry. -/
theorem Wrote.entry_client (hw : Wrote cs cs' now mt a) (hk : k ≠ a.key) (hc : ¬ IsShardKey k) :
    cs'.store.entry k = cs.store.entry k := by
  rw [hw.other k hk, if_neg]
  rintro ⟨i, -, he⟩
  exact hc ⟨_, i, he⟩

/-- The copies of other keys than that of the call keep their entries. -/
theorem Wrote.entry_copy_of_ne (hw : Wrote cs cs' now mt a) (ha : ¬ IsShardKey a.key)
    (hk : k ≠ a.key) (i : ℕ) :
    cs'.store.entry (shardKeyName k i) = cs.store.entry (shardKeyName k i) := by
  have hne : shardKeyName k i ≠ a.key := fun he => ha ⟨k, i, he.symm⟩
  rw [hw.other _ hne, if_neg]
  rintro ⟨j, -, he⟩
  exact hk (shardKeyName_inj he).1

theorem Wrote.entry_copy (hw : Wrote cs cs' now mt a) (ha : ¬ IsShardKey a.key) {i : ℕ}
    (hi : i < mt.shardCount) :
    cs'.store.entry (shardKeyName a.key i) =
      (cs.copied now mt a).or (cs.store.entry (shardKeyName a.key i)) := by
  have hne : shardKeyName a.key i ≠ a.key := fun he => ha ⟨a.key, i, he.symm⟩
  rw [hw.other _ hne, if_pos ⟨i, hi, rfl⟩]

theorem Files.mem_iff {mt' : Mitigator} {key : Key} {split : Option Entry}
    (h : Files mt mt' key split) :
    k ∈ mt'.mitigatedKeys ↔ split.isSome = true ∧ k = key ∨ k ∈ mt.mitigatedKeys := by
  rw [h.mitigatedKeys]
  split_ifs with hs
  · rw [Finmap.mem_insert]
    simp [hs]
  · simp [hs]

theorem Files.lookup_eq {mt' : Mitigator} {key : Key} {split : Option Entry}
    (h : Files mt mt' key split) :
    mt'.mitigatedKeys.lookup k =
      if split.isSome = true ∧ k = key then some .keySplit else mt.mitigatedKeys.lookup k := by
  rw [h.mitigatedKeys]
  by_cases hs : split.isSome = true
  · rw [if_pos hs]
    by_cases hk : k = key
    · rw [if_pos ⟨hs, hk⟩, hk, Finmap.lookup_insert]
    · rw [if_neg fun hc => hk hc.2, Finmap.lookup_insert_of_ne _ hk]
  · rw [if_neg hs, if_neg fun hc => hs hc.1]

/-- A key is split by a read that finds it, once, and its copies do not expire. -/
theorem splits_eq_some {e : Entry} (h : cs.splits now mt a = some e) :
    a.key ∉ mt.mitigatedKeys ∧ e.expiresAt = none := by
  unfold splits at h
  split at h
  · split_ifs at h with hsplit
    obtain ⟨value, -, rfl⟩ := Option.map_eq_some_iff.1 h
    exact ⟨hsplit.2.2, rfl⟩
  · cases h

theorem isSet_of_through {e : Entry} (h : cs.writesThrough now mt a = some e) : a.IsSet := by
  unfold writesThrough at h
  split at h
  · trivial
  · cases h

/-- A `Set` that does not write a split key through is forwarded. -/
theorem call_of_not_through (ha : a.IsSet)
    (hk : mt.mitigatedKeys.lookup a.key = some .keySplit) (h : cs.writesThrough now mt a = none) :
    cs.call now a = cs := by
  cases a with
  | request req =>
    cases req with
    | set req =>
      rcases hf : cs.forwardTarget (Request.set req).serves req.key with _ | p
      · rw [writesThrough, if_pos ⟨hf, hk⟩] at h
        cases h
      · exact congrArg Prod.snd (cs.handle_proxy now (.set req) hf)
    | get | delete | expire => exact absurd ha id
  | replicate => exact absurd ha id

end

end CacheServer

open CacheServer in
/-- **When a call leaves another key alone.**  A read of `k`, which is not the key of the call,
    finds the same before and after the call if and only if the call does not write copies, or
    `k` is not one of them, or it reads as the copies do. -/
theorem other_key_kept_iff (cs : CacheServer) (mt : Mitigator) (hmt : cs.hotKeyMitigator = some mt)
    (now : Time) (a : ServerCall) (k : Key) (hk : k ≠ a.key) (t : Time) :
    ((cs.call now a).store.get t k).1 = (cs.store.get t k).1 ↔
      ∀ e, cs.copied now mt a = some e → mt.Copies a.key k →
        (alive t (some e)).map Entry.value = (cs.store.get t k).1 := by
  have hentry := (@call_wrote cs now mt hmt a).other k hk
  rw [Store.get_fst_alive, Store.get_fst_alive, hentry]
  by_cases hcopy : mt.Copies a.key k
  · rw [if_pos hcopy]
    rcases cs.copied now mt a with _ | e
    · exact iff_of_true rfl fun e he => nomatch he
    · constructor
      · intro he e' he' _
        rw [← Option.some.inj he']
        exact he
      · intro hall
        exact hall e rfl hcopy
  · rw [if_neg hcopy]
    exact iff_of_true rfl fun e _ hc => absurd hc hcopy

/-- A server that splits every key it reads. -/
def eager : CacheServer where
  nodeID := []
  store := .newWithShards 1
  ring := .new 1 0
  replicationMgr := none
  hotKeyMitigator := some (.new (.new 1) 2)

/-- A write of a key that is not split leaves the names of its copies alone. -/
theorem other_key_kept_unsplit :
    ((eager.call 0 (.request (.set ⟨[107], [1], 0⟩))).store.get 0 (shardKeyName [107] 0)).1 =
      (eager.store.get 0 (shardKeyName [107] 0)).1 :=
  (other_key_kept_iff eager _ rfl 0 (.request (.set ⟨[107], [1], 0⟩)) (shardKeyName [107] 0)
    (by decide) 0).2 fun e he => by cases he

/-- A client key with the name of a copy is overwritten by a read of another key. -/
theorem other_key_overwritten :
    let cs := (eager.call 0 (.request (.set ⟨[107], [1], 0⟩))).call 0
      (.request (.set ⟨shardKeyName [107] 0, [2], 0⟩))
    (cs.store.get 0 (shardKeyName [107] 0)).1 = some [2] ∧
      ((cs.call 0 (.request (.get ⟨[107]⟩))).store.get 0 (shardKeyName [107] 0)).1 = some [1] := by
  decide +kernel

end DistCache
