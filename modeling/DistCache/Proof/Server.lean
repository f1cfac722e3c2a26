/-
  The handlers of a node.

  * `handle_proxy` / `handle_serve`: a request is forwarded to the head of the
    clockwise order, or served on the local store; the load counters balance;
  * `serve_frame`: what serving a request leaves unchanged;
  * the entries after a served request, at every key that is not one of the
    shard copies of the requested key (`Spares`).
-/
import DistCache.Server
import DistCache.Proof.Store
import DistCache.Proof.Ring

namespace DistCache

/-! ## Keys and their shard copies -/

/-- `k` is no shard copy of `key`. -/
def Spares (key k : Key) : Prop := ∀ i, k ≠ shardKeyName key i

theorem spares_self (key : Key) : Spares key key := by
  intro i h
  have := congrArg List.length h
  simp only [shardKeyName, ascii, List.length_append, List.length_map, List.length_cons,
    List.length_nil] at this
  omega

namespace Mitigator

/-- `k` is one of the copies of `key`. -/
def Copies (mt : Mitigator) (key k : Key) : Prop := ∃ i < mt.shardCount, k = shardKeyName key i

instance (mt : Mitigator) (key k : Key) : Decidable (mt.Copies key k) :=
  inferInstanceAs (Decidable (∃ i < mt.shardCount, k = shardKeyName key i))

variable (mt : Mitigator) (s : Store) (now : Time) {key k : Key}

theorem Copies.ne {mt : Mitigator} (h : mt.Copies key k) : k ≠ key := by
  rintro rfl
  obtain ⟨i, -, he⟩ := h
  exact spares_self k i he

theorem not_copies (h : Spares key k) : ¬ mt.Copies key k := by
  rintro ⟨i, -, he⟩
  exact h i he

/-- The loop over the copies writes them, and nothing else. -/
theorem entry_setShards (value : Value) (ttl : Duration) :
    (mt.setShards s now key value ttl).entry k =
      if mt.Copies key k then some ⟨value, Store.expiryOf now ttl⟩ else s.entry k := by
  have hloop : ∀ n, ((List.range n).foldl
      (fun s i => s.set now (shardKeyName key i) value ttl) s).entry k =
      if ∃ i < n, k = shardKeyName key i then some ⟨value, Store.expiryOf now ttl⟩
      else s.entry k := by
    intro n
    induction n with
    | zero => simp
    | succ n ih =>
      rw [List.range_succ, List.foldl_append, List.foldl_cons, List.foldl_nil, Store.entry_set, ih]
      by_cases hn : k = shardKeyName key n
      · rw [if_pos hn, if_pos ⟨n, n.lt_succ_self, hn⟩]
      · rw [if_neg hn]
        have hiff : (∃ i < n, k = shardKeyName key i) ↔ ∃ i < n + 1, k = shardKeyName key i := by
          constructor
          · rintro ⟨i, hi, he⟩
            exact ⟨i, by omega, he⟩
          · rintro ⟨i, hi, he⟩
            have hin : i ≠ n := fun h => hn (h ▸ he)
            exact ⟨i, by omega, he⟩
        simp only [hiff]
  exact hloop mt.shardCount

theorem entry_writeToShards (h : Spares key k) (value : Value) (ttl : Duration) :
    (mt.writeToShards s now key value ttl).entry k =
      if k = key then some ⟨value, Store.expiryOf now ttl⟩ else s.entry k := by
  simp only [writeToShards]
  by_cases hs : mt.mitigatedKeys.lookup key = some .keySplit
  · rw [if_pos hs, entry_setShards, if_neg (mt.not_copies h), Store.entry_set]
  · rw [if_neg hs, Store.entry_set]

theorem entry_applySplitting (h : Spares key k) :
    (mt.applySplitting s now key).entry k = (s.get now key).2.entry k := by
  unfold applySplitting
  split
  · rename_i hg; rw [hg]
  · rename_i hg; rw [hg, entry_setShards, if_neg (mt.not_copies h)]

/-- Mitigating a key touches it as `Get` does, and its shard copies. -/
theorem entry_checkAndMitigate (h : Spares key k) :
    (mt.checkAndMitigate s now key).2.2.entry k = s.entry k ∨
      (mt.checkAndMitigate s now key).2.2.entry k = (s.get now key).2.entry k := by
  simp only [checkAndMitigate]
  split_ifs
  · exact Or.inl rfl
  · exact Or.inr (entry_applySplitting _ _ _ h)
  · exact Or.inl rfl

end Mitigator

/-! ## Forwarding -/

/-- Who may serve a request: the primary of its key, for `Get` any replica. -/
def Request.serves : Request → ReplicationManager → Ring → Key → Bool
  | .get _ => fun rm => rm.isReplica
  | _ => fun rm => rm.isPrimary

/-- A request served on the local store. -/
def CacheServer.serve (cs : CacheServer) (now : Time) : Request → Handled × CacheServer
  | .get req => cs.serveGet now req
  | .set req => cs.serveSet now req
  | .delete req => cs.serveDelete req
  | .expire req => cs.serveExpire now req

/-- `GetNodes` does not read the load counters. -/
theorem Ring.getNodes_congr {r r' : Ring} (hv : r'.vnodes = r.vnodes) (hn : r'.nodes = r.nodes) :
    r'.getNodes = r.getNodes := by
  funext key n
  simp only [getNodes, walk, search, hv, hn]

@[simp] theorem Ring.getNodes_incrementLoad (r : Ring) (id : NodeID) :
    (r.incrementLoad id).getNodes = r.getNodes :=
  getNodes_congr (r.incrementLoad_vnodes id) (r.incrementLoad_nodes id)

section
variable (rm : ReplicationManager) (r : Ring) (id : NodeID) (key : Key)

@[simp] theorem isPrimary_incrementLoad :
    rm.isPrimary (r.incrementLoad id) key = rm.isPrimary r key := by
  simp [ReplicationManager.isPrimary]

@[simp] theorem isReplica_incrementLoad :
    rm.isReplica (r.incrementLoad id) key = rm.isReplica r key := by
  simp [ReplicationManager.isReplica]

@[simp] theorem getPrimary_incrementLoad :
    rm.getPrimary (r.incrementLoad id) key = rm.getPrimary r key := by
  simp [ReplicationManager.getPrimary]

@[simp] theorem replicate_incrementLoad (f : UInt64 → ReplicateRequest) :
    rm.replicate (r.incrementLoad id) key f = rm.replicate r key f := by
  simp [ReplicationManager.replicate, ReplicationManager.getSecondaries]

end

namespace CacheServer

variable (cs : CacheServer) (now : Time) (req : Request)

/-- The server while it handles a request. -/
def loaded : CacheServer := { cs with ring := cs.ring.incrementLoad cs.nodeID }

theorem handle_eq :
    cs.handle now req = cs.handling req.serves req.key fun cs => cs.serve now req := by
  cases req <;> rfl

@[simp] theorem loaded_forwardTarget (key : Key) :
    cs.loaded.forwardTarget req.serves key = cs.forwardTarget req.serves key := by
  cases req <;>
    simp only [forwardTarget, loaded, Request.serves, isPrimary_incrementLoad,
      isReplica_incrementLoad, getPrimary_incrementLoad] <;> rfl

theorem loaded_checkHot (key : Key) :
    cs.loaded.checkHot now key = ((cs.checkHot now key).1, (cs.checkHot now key).2.loaded) := by
  obtain ⟨nodeID, store, ring, rm, mt⟩ := cs
  cases mt <;> rfl

theorem loaded_ifPrimary (key : Key) (f : ReplicationManager → ReplicationManager × List Send) :
    cs.loaded.ifPrimary key f = ((cs.ifPrimary key f).1, (cs.ifPrimary key f).2.loaded) := by
  obtain ⟨nodeID, store, ring, rm, mt⟩ := cs
  cases rm with
  | none => rfl
  | some rm => simp only [ifPrimary, loaded, isPrimary_incrementLoad]; split_ifs <;> rfl

theorem loaded_replicateExpire (req : ExpireRequest) :
    cs.loaded.replicateExpire now req =
      ((cs.replicateExpire now req).1, (cs.replicateExpire now req).2.loaded) := by
  obtain ⟨nodeID, store, ring, rm, mt⟩ := cs
  cases rm with
  | none => rfl
  | some rm =>
    simp only [replicateExpire, loaded, isPrimary_incrementLoad,
      ReplicationManager.replicateWrite, replicate_incrementLoad]
    split_ifs
    · rcases store.get now req.key with ⟨_ | value, store⟩ <;> rfl
    · rfl

/-- Serving a request reads the ring through `GetNodes` only, and keeps it. -/
theorem loaded_serve :
    cs.loaded.serve now req = ((cs.serve now req).1, (cs.serve now req).2.loaded) := by
  have hstore : cs.loaded.store = cs.store := rfl
  have hring : cs.loaded.ring = cs.ring.incrementLoad cs.nodeID := rfl
  cases req with
  | get req =>
    simp only [serve, serveGet, hstore]
    rcases cs.store.get now req.key with ⟨_ | value, store⟩
    · rfl
    · have h := loaded_checkHot { cs with store } now req.key
      simp only [loaded] at h ⊢
      rw [h]
  | set req =>
    have hwrite : cs.loaded.write = cs.write := rfl
    have h := loaded_ifPrimary
      { cs with store := cs.write now req.key req.value (ttlOfMs req.ttlMs) } req.key
    simp only [loaded] at h
    simp only [serve, serveSet, hring, hwrite, ReplicationManager.replicateWrite,
      replicate_incrementLoad]
    simp only [loaded]
    rw [h]
  | delete req =>
    have h := loaded_ifPrimary { cs with store := (cs.store.delete req.key).2 } req.key
    simp only [loaded] at h
    simp only [serve, serveDelete, hring, hstore, ReplicationManager.replicateDelete,
      replicate_incrementLoad]
    simp only [loaded]
    rw [h]
  | expire req =>
    simp only [serve, serveExpire, hstore]
    rcases cs.store.expire now req.key (ttlOfMs req.ttlMs) with ⟨_ | _, store⟩
    · rfl
    · have h := loaded_replicateExpire { cs with store } now req
      simp only [loaded] at h ⊢
      rw [h]

theorem loaded_decrementLoad :
    { cs.loaded with ring := cs.loaded.ring.decrementLoad cs.loaded.nodeID } = cs := by
  simp only [loaded, Ring.decrementLoad_incrementLoad]

/-- A forwarded request leaves the server as it was. -/
theorem handle_proxy {p : NodeID} (h : cs.forwardTarget req.serves req.key = some p) :
    cs.handle now req = (.proxy p, cs) := by
  have hf := cs.loaded_forwardTarget req req.key
  rw [h] at hf
  rw [handle_eq, handling]
  simp only [loaded] at hf
  simp only [hf]
  exact congrArg _ cs.loaded_decrementLoad

theorem handle_serve (h : cs.forwardTarget req.serves req.key = none) :
    cs.handle now req = cs.serve now req := by
  have hf := cs.loaded_forwardTarget req req.key
  have hs := cs.loaded_serve now req
  rw [h] at hf
  rw [handle_eq, handling]
  simp only [loaded] at hf hs
  simp only [hf, hs]
  exact Prod.ext rfl (cs.serve now req).2.loaded_decrementLoad

theorem forwardTarget_eq_some {serves : ReplicationManager → Ring → Key → Bool} {key : Key}
    {p : NodeID} (h : cs.forwardTarget serves key = some p) :
    ∃ rm, cs.replicationMgr = some rm ∧ serves rm cs.ring key = false ∧
      (cs.ring.getNodes key 1).head? = some p ∧ p ≠ cs.nodeID ∧ p ∈ rm.peerConns := by
  unfold forwardTarget at h
  cases hrm : cs.replicationMgr with
  | none => simp [hrm] at h
  | some rm =>
    rw [hrm] at h
    dsimp only at h
    split_ifs at h with hs
    cases hp : rm.getPrimary cs.ring key with
    | none => simp [hp] at h
    | some primary =>
      rw [hp] at h
      dsimp only at h
      split_ifs at h with hc
      obtain rfl := Option.some.inj h
      exact ⟨rm, rfl, by simpa using hs, hp, hc⟩

theorem serve_ne_proxy (p : NodeID) : (cs.serve now req).1 ≠ .proxy p := by
  cases req with
  | get req => simp only [serve, serveGet]; split <;> simp
  | set req => simp [serve, serveSet]
  | delete req => simp [serve, serveDelete]
  | expire req => simp only [serve, serveExpire]; split <;> simp

/-! ## What serving a request keeps -/

/-- What a replication manager keeps when it numbers a request. -/
def wiring (rm : ReplicationManager) : NodeID × ℕ × GoMap NodeID GoString :=
  (rm.selfID, rm.replicaCount, rm.peerConns)

/-- `cs'` is `cs` up to the store, the sequence number and the mitigator. -/
structure SameWiring (cs cs' : CacheServer) : Prop where
  nodeID : cs'.nodeID = cs.nodeID
  ring : cs'.ring = cs.ring
  replicationMgr : cs'.replicationMgr.map wiring = cs.replicationMgr.map wiring

theorem SameWiring.refl : SameWiring cs cs := ⟨rfl, rfl, rfl⟩

theorem SameWiring.trans {cs cs' cs'' : CacheServer} (h : SameWiring cs cs')
    (h' : SameWiring cs' cs'') : SameWiring cs cs'' :=
  ⟨h'.nodeID.trans h.nodeID, h'.ring.trans h.ring, h'.replicationMgr.trans h.replicationMgr⟩

theorem wiring_replicate (rm : ReplicationManager) (ring : Ring) (key : Key)
    (f : UInt64 → ReplicateRequest) : wiring (rm.replicate ring key f).1 = wiring rm := by
  unfold ReplicationManager.replicate
  split <;> rfl

section
variable {rm rm' : ReplicationManager} {ring : Ring}

theorem isPrimary_congr (h : wiring rm' = wiring rm) (key : Key) :
    rm'.isPrimary ring key = rm.isPrimary ring key := by
  simp only [wiring, Prod.mk.injEq] at h
  simp only [ReplicationManager.isPrimary, h.1]

theorem getSecondaries_congr (h : wiring rm' = wiring rm) (key : Key) :
    rm'.getSecondaries ring key = rm.getSecondaries ring key := by
  simp only [wiring, Prod.mk.injEq] at h
  simp only [ReplicationManager.getSecondaries, h.1, h.2.1]

/-- A numbered request is sent to every secondary. -/
theorem replicate_snd (key : Key) (f : UInt64 → ReplicateRequest) :
    (rm.replicate ring key f).2 =
      (rm.getSecondaries ring key).map fun id => ⟨id, f (rm.sequence + 1)⟩ := by
  unfold ReplicationManager.replicate
  split
  · rename_i h; rw [h]; rfl
  · rfl

end

theorem ifPrimary_sameWiring (key : Key) {f : ReplicationManager → ReplicationManager × List Send}
    (hf : ∀ rm, wiring (f rm).1 = wiring rm) : SameWiring cs (cs.ifPrimary key f).2 := by
  unfold ifPrimary
  split
  · exact .refl cs
  · rename_i rm hrm
    split_ifs
    · exact ⟨rfl, rfl, by simp [hrm, hf]⟩
    · exact .refl cs

theorem serve_sameWiring : SameWiring cs (cs.serve now req).2 := by
  cases req with
  | get req =>
    simp only [serve, serveGet]
    rcases cs.store.get now req.key with ⟨_ | value, store⟩
    · exact ⟨rfl, rfl, rfl⟩
    · simp only [checkHot]
      cases cs.hotKeyMitigator <;> exact ⟨rfl, rfl, rfl⟩
  | set req =>
    obtain ⟨h1, h2, h3⟩ := ifPrimary_sameWiring
      { cs with store := cs.write now req.key req.value (ttlOfMs req.ttlMs) } req.key
      (f := fun rm => rm.replicateWrite cs.ring req.key req.value req.ttlMs)
      fun rm => wiring_replicate ..
    exact ⟨h1, h2, h3⟩
  | delete req =>
    obtain ⟨h1, h2, h3⟩ := ifPrimary_sameWiring { cs with store := (cs.store.delete req.key).2 }
      req.key (f := fun rm => rm.replicateDelete cs.ring req.key)
      fun rm => wiring_replicate ..
    exact ⟨h1, h2, h3⟩
  | expire req =>
    simp only [serve, serveExpire]
    rcases cs.store.expire now req.key (ttlOfMs req.ttlMs) with ⟨_ | _, store⟩
    · exact ⟨rfl, rfl, rfl⟩
    · simp only [replicateExpire]
      cases hrm : cs.replicationMgr with
      | none => exact ⟨rfl, rfl, by simp [hrm]⟩
      | some rm =>
        dsimp only
        split_ifs
        · rcases store.get now req.key with ⟨_ | value, store⟩
          · exact ⟨rfl, rfl, by simp [hrm]⟩
          · exact ⟨rfl, rfl, by simp [hrm, ReplicationManager.replicateWrite, wiring_replicate]⟩
        · exact ⟨rfl, rfl, by simp [hrm]⟩

/-! ## What serving a request writes -/

theorem entry_write {key k : Key} (h : Spares key k) (value : Value) (ttl : Duration) :
    (cs.write now key value ttl).entry k =
      if k = key then some ⟨value, Store.expiryOf now ttl⟩ else cs.store.entry k := by
  unfold write
  split
  · exact Store.entry_set ..
  · split_ifs with hm hk hk
    · rw [Mitigator.entry_writeToShards _ _ _ h, if_pos hk]
    · rw [Mitigator.entry_writeToShards _ _ _ h, if_neg hk]
    · rw [Store.entry_set, if_pos hk]
    · rw [Store.entry_set, if_neg hk]

theorem ifPrimary_store (key : Key) (f : ReplicationManager → ReplicationManager × List Send) :
    (cs.ifPrimary key f).2.store = cs.store := by
  unfold ifPrimary
  split
  · rfl
  · split_ifs <;> rfl

/-- The read of `Expire` on the primary is all it does to the store besides the expiry. -/
theorem entry_replicateExpire (req : ExpireRequest) {k : Key}
    (h : (cs.store.get now req.key).2.entry k = cs.store.entry k) :
    (cs.replicateExpire now req).2.store.entry k = cs.store.entry k := by
  unfold replicateExpire
  split
  · rfl
  · split_ifs
    · rcases hg : cs.store.get now req.key with ⟨_ | value, store⟩
      · rw [hg] at h
        exact h
      · rw [hg] at h
        exact h
    · rfl

/-- The primary reads back the entry with its new expiry, which is not over. -/
theorem entry_serveExpire (req : ExpireRequest) (k : Key) :
    (cs.serveExpire now req).2.store.entry k =
      (cs.store.expire now req.key (ttlOfMs req.ttlMs)).2.entry k := by
  have hfound := cs.store.expire_fst now req.key (ttlOfMs req.ttlMs)
  have hentry := cs.store.entry_expire now req.key req.key (ttlOfMs req.ttlMs)
  unfold serveExpire
  rcases hexp : cs.store.expire now req.key (ttlOfMs req.ttlMs) with ⟨_ | _, store⟩
  · rfl
  · rw [hexp] at hfound hentry
    refine entry_replicateExpire { cs with store } now req ?_
    rw [store.entry_get]
    split_ifs with hk
    · -- the key was found, so its entry has the new expiry
      obtain ⟨e, he⟩ := Option.isSome_iff_exists.1 hfound.symm
      obtain ⟨he, hx⟩ := Option.filter_eq_some_iff.1 he
      have hlive : e.isExpired now = false := by simpa using hx
      rw [hk, hentry, if_pos rfl, he, Option.map_some, hlive, if_neg Bool.false_ne_true,
        Option.filter_some, not_isExpired_expiryOf]
      rfl
    · rfl

/-- The second read, of the mitigator, finds what the first has left. -/
theorem entry_serveGet {key k : Key} (hk : Spares key k) :
    (cs.serveGet now ⟨key⟩).2.store.entry k = (cs.store.get now key).2.entry k := by
  have htwice : ((cs.store.get now key).2.get now key).2.entry k =
      (cs.store.get now key).2.entry k := by
    simp only [Store.entry_get]
    split_ifs
    · simp
    · rfl
  unfold serveGet
  dsimp only
  rcases hg : cs.store.get now key with ⟨_ | value, store⟩
  · rfl
  · rw [hg] at htwice
    dsimp only [checkHot]
    cases hmt : cs.hotKeyMitigator with
    | none => rfl
    | some mt =>
      rcases mt.entry_checkAndMitigate store now hk with he | he
      · exact he
      · exact he.trans htwice

theorem serveSet_store (req : SetRequest) :
    (cs.serveSet now req).2.store = cs.write now req.key req.value (ttlOfMs req.ttlMs) :=
  ifPrimary_store ..

theorem serveDelete_store (req : DeleteRequest) :
    (cs.serveDelete req).2.store = (cs.store.delete req.key).2 := ifPrimary_store ..

/-- The entry of a key after a served `Set`. -/
theorem entry_serve_set {key k : Key} (h : Spares key k) (value : Value) (ttlMs : Int64) :
    (cs.serve now (.set ⟨key, value, ttlMs⟩)).2.store.entry k =
      if k = key then some ⟨value, Store.expiryOf now (ttlOfMs ttlMs)⟩ else cs.store.entry k := by
  have hstore : (cs.serve now (.set ⟨key, value, ttlMs⟩)).2.store =
      cs.write now key value (ttlOfMs ttlMs) := cs.serveSet_store now _
  rw [hstore, cs.entry_write now h]

/-- The entry of a key after a served `Delete`. -/
theorem entry_serve_delete (key k : Key) :
    (cs.serve now (.delete ⟨key⟩)).2.store.entry k =
      if k = key then none else cs.store.entry k := by
  have hstore : (cs.serve now (.delete ⟨key⟩)).2.store = (cs.store.delete key).2 :=
    cs.serveDelete_store _
  rw [hstore, Store.entry_delete]

theorem entry_checkHot {key k : Key} (h : Spares key k) {v : Option Value}
    (hv : cs.store.entry key = v.map Store.persistent) :
    (cs.checkHot now key).2.store.entry k = cs.store.entry k := by
  unfold checkHot
  split
  · rfl
  · rename_i mt _
    rcases mt.entry_checkAndMitigate cs.store now h with he | he
    · exact he
    · exact he.trans ((cs.store.get_persistent now key hv).2 k)

/-- A read answers what the store has. -/
theorem serveGet_fst (key : Key) :
    ∃ isHot, (cs.serveGet now ⟨key⟩).1 = .reply (.get ⟨key, (cs.store.get now key).1.getD [],
      (cs.store.get now key).1.isSome, 0, isHot⟩) [] := by
  unfold serveGet
  dsimp only
  rcases cs.store.get now key with ⟨_ | value, store⟩
  · exact ⟨false, rfl⟩
  · exact ⟨_, rfl⟩

/-- A read of a persistent entry answers its value and changes no client key. -/
theorem serveGet_persistent {key : Key} {v : Option Value}
    (hv : cs.store.entry key = v.map Store.persistent) :
    (∃ isHot, (cs.serveGet now ⟨key⟩).1 = .reply (.get ⟨key, v.getD [], v.isSome, 0, isHot⟩) []) ∧
      ∀ k, Spares key k → (cs.serveGet now ⟨key⟩).2.store.entry k = cs.store.entry k := by
  obtain ⟨hget, hentry⟩ := cs.store.get_persistent now key hv
  refine ⟨hget ▸ cs.serveGet_fst now key, fun k hk => ?_⟩
  unfold serveGet
  dsimp only
  rcases hg : cs.store.get now key with ⟨_ | value, store⟩
  · rw [hg] at hentry
    exact hentry k
  · rw [hg] at hentry
    exact (entry_checkHot { cs with store } now hk ((hentry key).trans hv)).trans (hentry k)

/-- A write served by the primary is sent to every secondary. -/
theorem ifPrimary_replicate {rm : ReplicationManager} (hrm : cs.replicationMgr = some rm)
    {key : Key} (hp : rm.isPrimary cs.ring key = true)
    (f : ReplicationManager → UInt64 → ReplicateRequest) :
    (cs.ifPrimary key fun rm => rm.replicate cs.ring key (f rm)).1 =
      (rm.getSecondaries cs.ring key).map fun id => ⟨id, f rm (rm.sequence + 1)⟩ := by
  simp only [ifPrimary, hrm, hp, if_true, replicate_snd]

/-- `m` is a write of `k` without expiry. -/
def IsWrite (k : Key) (m : ReplicateRequest) : Prop :=
  m.key = k ∧ m.ttlMs = 0 ∧ (m.op = .set ∨ m.op = .delete)

/-- The value a replicated write leaves in the store. -/
def effectOf (m : ReplicateRequest) : Option Value := if m.op = .set then some m.value else none

theorem entry_replicate {key : Key} {m : ReplicateRequest} (h : IsWrite key m) (k : Key) :
    (cs.replicate now m).store.entry k =
      if k = key then (effectOf m).map Store.persistent else cs.store.entry k := by
  obtain ⟨hk, ht, hop | hop⟩ := h
  · simp only [replicate, hop, Store.entry_set, hk, ht, effectOf, if_true, ttlOfMs_zero,
      Store.expiryOf_zero, Option.map_some]
  · simp only [replicate, hop, Store.entry_delete, hk, effectOf, reduceCtorEq, if_false,
      Option.map_none]

theorem replicate_replicationMgr (req : ReplicateRequest) :
    (cs.replicate now req).replicationMgr = cs.replicationMgr := by
  unfold replicate
  split <;> rfl

theorem replicate_sameWiring (req : ReplicateRequest) :
    SameWiring cs (cs.replicate now req) := by
  unfold replicate
  split <;> exact ⟨rfl, rfl, rfl⟩

end CacheServer

/-- A replicated write leaves the other keys alone. -/
theorem entry_replicate_of_ne {m : ReplicateRequest} {k : Key} (h : m.key ≠ k) (cs : CacheServer)
    (now : Time) : (cs.replicate now m).store.entry k = cs.store.entry k := by
  unfold CacheServer.replicate
  split
  · exact (Store.entry_set ..).trans (if_neg h.symm)
  · exact (Store.entry_delete ..).trans (if_neg h.symm)
  · rfl

end DistCache
