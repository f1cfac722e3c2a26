/-
  A client against a single server.

  A single server serves every request itself (`Single.handle`).  The accesses of a call are
  specified by what the client-side cache holds for a key after them (`Client.held`).
-/
import DistCache.Client
import DistCache.Cluster
import DistCache.Proof.L1
import DistCache.Proof.Server

namespace DistCache

open CacheServer

/-! ## The server -/

/-- A node that is alone on its ring. -/
structure Single (cs : CacheServer) : Prop where
  wf : cs.ring.WF
  nodes : cs.ring.nodes = {cs.nodeID}

section
variable {cs cs' : CacheServer} {now : Time} {k key : Key}

theorem Single.of_sameWiring (h : Single cs) (hw : SameWiring cs cs') : Single cs' := by
  refine ⟨?_, ?_⟩
  · rw [hw.ring]; exact h.wf
  · rw [hw.ring, hw.nodeID]; exact h.nodes

theorem Single.handle (h : Single cs) (now : Time) (req : Request) :
    cs.handle now req = cs.serve now req := by
  refine cs.handle_serve now req ?_
  rcases hf : cs.forwardTarget req.serves req.key with _ | p
  · rfl
  · -- the primary is the node itself
    obtain ⟨-, -, -, hp, hne, -⟩ := cs.forwardTarget_eq_some hf
    have hmem : p ∈ cs.ring.order req.key := by
      rw [h.wf.getNodes_eq] at hp
      exact List.mem_of_mem_take (List.mem_of_mem_head? hp)
    rw [h.wf.mem_order, h.nodes, Finset.mem_singleton] at hmem
    exact absurd hmem hne

/-- An RPC is executed unless it is lost. -/
theorem Single.invoke_snd (h : Single cs) (rpc : Rpc) (now : Time) (req : Request) :
    (cs.invoke rpc now req).2 = if rpc = .lost then cs else (cs.serve now req).2 := by
  unfold invoke
  rw [h.handle]
  rcases hs : cs.serve now req with ⟨_ | _, cs'⟩ <;> cases rpc <;> rfl

theorem Single.invoke (h : Single cs) (rpc : Rpc) (now : Time) (req : Request) :
    Single (cs.invoke rpc now req).2 := by
  rw [h.invoke_snd]
  split_ifs
  · exact h
  · exact h.of_sameWiring (cs.serve_sameWiring now req)

/-- The answer to a read is what the store has. -/
theorem Single.invoke_get (h : Single cs) {rpc : Rpc} {resp : Response}
    (hr : (cs.invoke rpc now (.get ⟨key⟩)).1 = some resp) :
    ∃ isHot, resp = .get ⟨key, (cs.store.get now key).1.getD [], (cs.store.get now key).1.isSome, 0,
      isHot⟩ := by
  obtain ⟨isHot, hs⟩ := cs.serveGet_fst now key
  refine ⟨isHot, ?_⟩
  unfold CacheServer.invoke at hr
  rw [h.handle] at hr
  have hserve : (cs.serve now (.get ⟨key⟩)).1 = _ := hs
  rcases hc : cs.serve now (.get ⟨key⟩) with ⟨handled, cs'⟩
  rw [hc] at hserve hr
  obtain rfl := hserve
  cases rpc <;> simp at hr
  exact hr.symm

/-- A read removes an expired entry at most. -/
theorem entry_serveGet (cs : CacheServer) (now : Time) (hk : Spares key k) :
    (cs.serveGet now ⟨key⟩).2.store.entry k = cs.store.entry k ∨
      (cs.serveGet now ⟨key⟩).2.store.entry k = none := by
  have hget : ∀ s : Store, (s.get now key).2.entry k = s.entry k ∨
      (s.get now key).2.entry k = none := by
    intro s
    rw [s.entry_get]
    split_ifs with he
    · subst he
      rcases s.entry k with _ | e
      · exact Or.inl rfl
      · by_cases hx : e.isExpired now = true
        · right; simp [Option.filter, hx]
        · left; simp [Option.filter, hx]
    · exact Or.inl rfl
  unfold serveGet
  dsimp only
  rcases hg : cs.store.get now key with ⟨_ | value, store⟩
  · have := hget cs.store
    rw [hg] at this
    exact this
  · have hstore := hget cs.store
    rw [hg] at hstore
    have hhot : ({ cs with store }.checkHot now key).2.store.entry k = store.entry k ∨
        ({ cs with store }.checkHot now key).2.store.entry k = none := by
      unfold checkHot
      split
      · exact Or.inl rfl
      · rename_i mt _
        rcases mt.entry_checkAndMitigate store now hk with he | he
        · exact Or.inl he
        · exact (hget store).imp he.trans he.trans
    rcases hhot with he | he
    · exact hstore.imp he.trans he.trans
    · exact Or.inr he

end

/-! ## The client-side cache -/

namespace Client

/-- What the cache has for a key. -/
def held (c : Client) (key : Key) : Option L1Element := c.l1Cache.bind fun l1 => l1.held key

/-- The map and the list of the cache correspond. -/
def Linked (c : Client) : Prop := ∀ l1 ∈ c.l1Cache, l1.Linked

variable {c : Client} {now : Time} {k key : Key}

theorem Linked.l1Get (h : c.Linked) : (c.l1Get now key).2.Linked := by
  unfold Client.l1Get
  rcases hl : c.l1Cache with _ | l1
  · exact h
  · rintro l1' hl'
    obtain rfl := Option.some.inj hl'
    exact (h l1 hl).get now key

theorem Linked.l1Get_fst (h : c.Linked) (now : Time) (key : Key) :
    (c.l1Get now key).1 =
      ((c.held key).filter fun e => !decide (e.expiresAt < now)).map L1Element.value := by
  unfold Client.l1Get held
  rcases hl : c.l1Cache with _ | l1
  · rfl
  · exact (h l1 hl).get_fst now key

theorem Linked.held_l1Get (h : c.Linked) :
    (c.l1Get now key).2.held k =
      if k = key then (c.held key).filter fun e => !decide (e.expiresAt < now) else c.held k := by
  unfold Client.l1Get held
  rcases hl : c.l1Cache with _ | l1
  · simp [hl]
  · exact (h l1 hl).held_get now key k

theorem Linked.l1Delete (h : c.Linked) : (c.l1Delete key).Linked := by
  intro l1 hl
  obtain ⟨l1, hl', rfl⟩ := Option.map_eq_some_iff.1 hl
  exact (h l1 hl').delete key

theorem Linked.held_l1Delete (h : c.Linked) :
    (c.l1Delete key).held k = if k = key then none else c.held k := by
  unfold Client.l1Delete held
  rcases hl : c.l1Cache with _ | l1
  · simp
  · exact (h l1 hl).held_delete key k

theorem Linked.l1Store (h : c.Linked) (resp : GetResponse) : (c.l1Store now key resp).Linked := by
  unfold Client.l1Store
  split_ifs
  · intro l1 hl
    obtain ⟨l1, hl', rfl⟩ := Option.map_eq_some_iff.1 hl
    exact (h l1 hl').set ..
  · exact h

/-- What is in the cache after a store was there before, or comes from a hot answer. -/
theorem Linked.held_l1Store (h : c.Linked) {resp : GetResponse} {e : L1Element}
    (he : (c.l1Store now key resp).held k = some e) :
    c.held k = some e ∨ (k = key ∧ resp.found = true ∧ resp.isHot = true ∧ e.value = resp.value ∧
      ∃ l1 ∈ c.l1Cache, e.expiresAt = l1.expiry now (resp.ttlMs * millisecond)) := by
  unfold Client.l1Store at he
  split_ifs at he with hhot
  · rw [Bool.and_eq_true] at hhot
    unfold held at he ⊢
    rcases hl : c.l1Cache with _ | l1
    · simp [hl] at he
    · rw [hl] at he
      have hset : (l1.set now key resp.value (resp.ttlMs * millisecond)).held k = some e := he
      by_cases hk : k = key
      · subst hk
        obtain ⟨id, hself⟩ := (h l1 hl).held_set_self k now resp.value (resp.ttlMs * millisecond)
        obtain rfl := Option.some.inj (hself.symm.trans hset)
        exact Or.inr ⟨rfl, hhot.1, hhot.2, rfl, l1, rfl, rfl⟩
      · left
        rcases (h l1 hl).held_set_of_ne key now resp.value (resp.ttlMs * millisecond) hk with
          hs | hs
        · exact hs.symm.trans hset
        · rw [hs] at hset; cases hset
  · exact Or.inl he

end Client

/-! ## A hot server -/

/-- A server on which every key is hot. -/
def hotServer : CacheServer :=
  { nodeWith .insertion 1 1 (ascii ['a']) [ascii ['a']] with
    hotKeyMitigator := some (.new ⟨.new 16 1, 1⟩ 4) }

/-- A client of this server, whose cache has ten entries and the default TTL. -/
def hotClient : Client :=
  ⟨hotServer.ring, (∅ : GoMap NodeID GoString).insert (ascii ['a']) (ascii ['a']),
    some (.new 10 0)⟩

theorem hotServer_single : Single hotServer :=
  ⟨Ring.built_wf ⟨0, [.addNode (ascii ['a'])], rfl⟩, by decide +kernel⟩

theorem hotClient_linked : hotClient.Linked := by
  intro l1 hl
  obtain rfl := Option.some.inj hl
  exact L1Cache.linked_new 10 0

end DistCache
