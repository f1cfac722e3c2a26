/-
  Where the values in a fleet come from.

  A predicate on keys and values that holds of a key also for its shard copies is kept by every
  call of the store, by the handlers, by the re-replication of a failed node's keys and by the
  sweeper (`AllHeld`).  In a fleet, "some client has set this value under this key" is such a
  predicate (`Genuine`): no value comes out of thin air, and none moves to another key.
-/
import DistCache.Proof.Calls
import DistCache.Proof.Fleet
import DistCache.Proof.Refine
import DistCache.Proof.Scan

namespace DistCache

open Lib

/-! ## Keys and their copies -/

/-- `k'` is `k`, or a shard copy of a copy of `k`. -/
inductive CopyOf (k : Key) : Key → Prop
  | self : CopyOf k k
  | shard {k' : Key} (i : ℕ) : CopyOf k k' → CopyOf k (shardKeyName k' i)

/-- A key that is no shard copy is a copy of itself only. -/
theorem CopyOf.eq {k k' : Key} (h : CopyOf k k') (hk : ¬ IsShardKey k') : k = k' := by
  cases h with
  | self => rfl
  | shard i h => exact absurd ⟨_, i, rfl⟩ hk

/-- The predicate holds of the copies of a key with the value of the key. -/
def ShardClosed (G : Key → Value → Prop) : Prop := ∀ k v i, G k v → G (shardKeyName k i) v

/-! ## The store -/

namespace Store

/-- Every value in a shard meets `G`. -/
def AllHeld (G : Key → Value → Prop) (s : Store) : Prop :=
  ∀ items ∈ s.shards, ∀ k e, items.lookup k = some e → G k e.value

section
variable {G : Key → Value → Prop} {s : Store} {now : Time} {key : Key}

theorem allHeld_newWithShards (n : ℤ) : (newWithShards n).AllHeld G := by
  intro items hitems k e he
  rw [List.eq_of_mem_replicate hitems, Finmap.lookup_empty] at he
  cases he

theorem AllHeld.entry (h : s.AllHeld G) {k : Key} {e : Entry} (he : s.entry k = some e) :
    G k e.value :=
  h _ (List.get_mem _ _) k e he

theorem AllHeld.putIndex (h : s.AllHeld G) {index : ℕ} {items : Items}
    (hitems : ∀ k e, items.lookup k = some e → G k e.value) :
    (s.putIndex index items).AllHeld G := by
  intro items' hitems'
  rcases List.mem_or_eq_of_mem_set hitems' with hmem | rfl
  · exact h items' hmem
  · exact hitems

theorem AllHeld.insert (h : s.AllHeld G) {e : Entry} (he : G key e.value) :
    (s.putShard key ((s.getShard key).insert key e)).AllHeld G := by
  refine h.putIndex fun k e' he' => ?_
  by_cases hk : k = key
  · rw [hk, Finmap.lookup_insert] at he'
    rw [hk, ← Option.some.inj he']
    exact he
  · rw [Finmap.lookup_insert_of_ne _ hk] at he'
    exact h _ (List.get_mem _ _) k e' he'

theorem AllHeld.erase (h : s.AllHeld G) :
    (s.putShard key ((s.getShard key).erase key)).AllHeld G := by
  refine h.putIndex fun k e he => ?_
  by_cases hk : k = key
  · rw [hk, Finmap.lookup_erase] at he
    cases he
  · rw [Finmap.lookup_erase_ne hk] at he
    exact h _ (List.get_mem _ _) k e he

theorem AllHeld.get (h : s.AllHeld G) : (s.get now key).2.AllHeld G := by
  have heff := exec_effect (s := s) (a := .get now key) rfl
  generalize (s.get now key).2 = s' at heff ⊢
  cases heff with
  | hit | miss => exact h
  | lapse => exact h.erase

theorem AllHeld.get_fst (h : s.AllHeld G) {v : Value} (hv : (s.get now key).1 = some v) :
    G key v := by
  rw [Store.get_fst] at hv
  obtain ⟨e, he, rfl⟩ := Option.map_eq_some_iff.1 hv
  exact h.entry (Option.filter_eq_some_iff.1 he).1

theorem AllHeld.set (h : s.AllHeld G) {value : Value} (hv : G key value) (ttl : Duration) :
    (s.set now key value ttl).AllHeld G := h.insert hv

theorem AllHeld.delete (h : s.AllHeld G) : (s.delete key).2.AllHeld G := by
  unfold Store.delete
  split
  · exact h
  · exact h.erase

theorem AllHeld.expire (h : s.AllHeld G) (ttl : Duration) : (s.expire now key ttl).2.AllHeld G := by
  unfold Store.expire
  split
  · exact h
  · rename_i e he
    split_ifs
    · exact h
    · have hv : G key e.value := h.entry he
      exact h.insert hv

theorem AllHeld.sweep (h : s.AllHeld G) {index : ℕ} {passes : List Pass} {s' : Store}
    (hs : s.sweepShard index passes = some s') : s'.AllHeld G := by
  refine sweepShard_inv (I := AllHeld G) ?_ h hs
  intro s₁ items now sample items' h₁ hitems hsample
  refine h₁.putIndex fun k e he => ?_
  rw [hsample.lookup] at he
  split_ifs at he
  exact h₁ items (List.mem_of_getElem? hitems) k e he

/-- The entries that a scan visits are in the store. -/
theorem AllHeld.visits (h : s.AllHeld G) {ord : RangeOrder Key Entry}
    {v : Key × Value × Duration} (hv : v ∈ s.visits ord now) : G v.1 v.2.1 := by
  obtain ⟨items, hitems, hv⟩ := List.mem_flatMap.1 hv
  obtain ⟨⟨k, e⟩, he, hv⟩ := List.mem_filterMap.1 hv
  dsimp only at hv
  split_ifs at hv
  obtain rfl := Option.some.inj hv
  exact h items hitems k e ((ord.mem_list items).1 he)

end

end Store

/-! ## The mitigator -/

section
variable {G : Key → Value → Prop} (hG : ShardClosed G) {s : Store} (h : s.AllHeld G) (mt : Mitigator)
  (now : Time) {key : Key}
include hG h

theorem Store.AllHeld.setShards {value : Value} (hv : G key value) (ttl : Duration) :
    (mt.setShards s now key value ttl).AllHeld G := by
  have hloop : ∀ (is : List ℕ) (s : Store), s.AllHeld G →
      (is.foldl (fun s i => s.set now (shardKeyName key i) value ttl) s).AllHeld G := by
    intro is
    induction is with
    | nil => exact fun _ h => h
    | cons i is ih => exact fun s h => ih _ (h.set (hG key value i hv) ttl)
  exact hloop _ s h

theorem Store.AllHeld.writeToShards {value : Value} (hv : G key value) (ttl : Duration) :
    (mt.writeToShards s now key value ttl).AllHeld G := by
  simp only [Mitigator.writeToShards]
  split_ifs
  · exact (h.set hv ttl).setShards hG mt now hv ttl
  · exact h.set hv ttl

theorem Store.AllHeld.applySplitting (key : Key) : (mt.applySplitting s now key).AllHeld G := by
  have hget : (s.get now key).2.AllHeld G := h.get
  unfold Mitigator.applySplitting
  split
  · rename_i hs
    rw [hs] at hget
    exact hget
  · rename_i value _ hs
    rw [hs] at hget
    exact hget.setShards hG mt now (h.get_fst (by rw [hs])) 0

theorem Store.AllHeld.checkAndMitigate (key : Key) :
    (mt.checkAndMitigate s now key).2.2.AllHeld G := by
  simp only [Mitigator.checkAndMitigate]
  split_ifs
  · exact h
  · exact h.applySplitting hG _ now key
  · exact h

end

/-! ## The handlers -/

/-- The message carries a value that meets `G`, if it carries one. -/
def ReplicateRequest.Sourced (G : Key → Value → Prop) (req : ReplicateRequest) : Prop :=
  req.op = .set → G req.key req.value

/-- The answer is about the key asked for, and a value found meets `G`. -/
def Response.Sourced (G : Key → Value → Prop) (req : Request) (resp : Response) : Prop :=
  ∀ r, resp = .get r → r.key = req.key ∧ (r.found = true → G req.key r.value)

/-- The value that a request writes meets `G`. -/
def Request.Sourced (G : Key → Value → Prop) (req : Request) : Prop :=
  ∀ r, req = .set r → G r.key r.value

section
variable {G : Key → Value → Prop} {cs : CacheServer}

theorem sourced_replicateWrite {rm : ReplicationManager} {ring : Ring} {key : Key} {value : Value}
    {ttlMs : Int64} (hv : G key value) :
    ∀ send ∈ (rm.replicateWrite ring key value ttlMs).2, send.req.Sourced G := by
  intro send hs
  rw [(mem_replicate.1 hs).2]
  exact fun _ => hv

theorem sourced_replicateDelete {rm : ReplicationManager} {ring : Ring} {key : Key} :
    ∀ send ∈ (rm.replicateDelete ring key).2, send.req.Sourced G := by
  intro send hs
  rw [(mem_replicate.1 hs).2]
  exact fun h => by cases h

theorem sourced_ifPrimary {key : Key} {f : ReplicationManager → ReplicationManager × List Send}
    (hf : ∀ rm, ∀ send ∈ (f rm).2, send.req.Sourced G) :
    ∀ send ∈ (cs.ifPrimary key f).1, send.req.Sourced G := by
  unfold CacheServer.ifPrimary
  split
  · exact fun send hs => absurd hs List.not_mem_nil
  · split_ifs
    · exact hf _
    · exact fun send hs => absurd hs List.not_mem_nil

/-- How a handler ends on a store that meets `G`. -/
structure Handled.Sourced (G : Key → Value → Prop) (req : Request)
    (handled : Handled × CacheServer) : Prop where
  store : handled.2.store.AllHeld G
  sends : ∀ send ∈ handled.1.sends, send.req.Sourced G
  resp : ∀ resp sends, handled.1 = .reply resp sends → resp.Sourced G req

variable (hG : ShardClosed G) (h : cs.store.AllHeld G) (now : Time)
include h

theorem sourced_serveDelete (req : DeleteRequest) :
    Handled.Sourced G (.delete req) (cs.serveDelete req) where
  store := by
    simp only [CacheServer.serveDelete, CacheServer.ifPrimary_store]
    exact h.delete
  sends := sourced_ifPrimary fun _ => sourced_replicateDelete
  resp resp sends he r hr := by
    cases he
    cases hr

theorem sourced_serveExpire (req : ExpireRequest) :
    Handled.Sourced G (.expire req) (cs.serveExpire now req) := by
  have hstore : (cs.store.expire now req.key (ttlOfMs req.ttlMs)).2.AllHeld G := h.expire _
  unfold CacheServer.serveExpire
  split
  · rename_i store hs
    rw [hs] at hstore
    refine ⟨hstore, fun send hs => absurd hs List.not_mem_nil, fun resp sends he r hr => ?_⟩
    cases he
    cases hr
  · rename_i store hs
    rw [hs] at hstore
    have hrep : ∀ cs : CacheServer, cs.store.AllHeld G →
        (cs.replicateExpire now req).2.store.AllHeld G ∧
          ∀ send ∈ (cs.replicateExpire now req).1, send.req.Sourced G := by
      intro cs h
      have hget : (cs.store.get now req.key).2.AllHeld G := h.get
      unfold CacheServer.replicateExpire
      split
      · exact ⟨h, fun send hs => absurd hs List.not_mem_nil⟩
      · split_ifs
        · split
          · rename_i hs
            rw [hs] at hget
            exact ⟨hget, fun send hs => absurd hs List.not_mem_nil⟩
          · rename_i value _ hs
            rw [hs] at hget
            exact ⟨hget, sourced_replicateWrite (h.get_fst (by rw [hs]))⟩
        · exact ⟨h, fun send hs => absurd hs List.not_mem_nil⟩
    obtain ⟨hheld, hsends⟩ := hrep { cs with store } hstore
    refine ⟨hheld, hsends, fun resp sends he r hr => ?_⟩
    cases he
    cases hr

include hG

theorem sourced_serveGet (req : GetRequest) :
    Handled.Sourced G (.get req) (cs.serveGet now req) := by
  have hstore : (cs.store.get now req.key).2.AllHeld G := h.get
  unfold CacheServer.serveGet
  split
  · rename_i store hs
    rw [hs] at hstore
    refine ⟨hstore, fun send hs => absurd hs List.not_mem_nil, fun resp sends he r hr => ?_⟩
    cases he
    cases hr
    exact ⟨rfl, fun hf => by cases hf⟩
  · rename_i value store hs
    have hv : (cs.store.get now req.key).1 = some value := by rw [hs]
    rw [hs] at hstore
    refine ⟨?_, fun send hs => absurd hs List.not_mem_nil, fun resp sends he r hr => ?_⟩
    · show ({ cs with store }.checkHot now req.key).2.store.AllHeld G
      unfold CacheServer.checkHot
      split
      · exact hstore
      · exact hstore.checkAndMitigate hG _ now req.key
    · cases he
      cases hr
      exact ⟨rfl, fun _ => h.get_fst hv⟩

theorem sourced_serveSet (req : SetRequest) (hreq : G req.key req.value) :
    Handled.Sourced G (.set req) (cs.serveSet now req) where
  store := by
    simp only [CacheServer.serveSet, CacheServer.ifPrimary_store, CacheServer.write]
    split
    · exact h.set hreq _
    · split_ifs
      · exact h.writeToShards hG _ now hreq _
      · exact h.set hreq _
  sends := sourced_ifPrimary fun _ => sourced_replicateWrite hreq
  resp resp sends he r hr := by
    cases he
    cases hr

/-- **A handler invents no value**: what it stores, sends and answers was in the store or in the
    request. -/
theorem sourced_handle {req : Request} (hreq : req.Sourced G) :
    Handled.Sourced G req (cs.handle now req) := by
  cases hf : cs.forwardTarget req.serves req.key with
  | some p =>
    rw [cs.handle_proxy now req hf]
    refine ⟨h, fun send hs => absurd hs List.not_mem_nil, fun resp sends he => ?_⟩
    cases he
  | none =>
    rw [cs.handle_serve now req hf]
    cases req with
    | get req => exact sourced_serveGet hG h now req
    | set req => exact sourced_serveSet hG h now req (hreq req rfl)
    | delete req => exact sourced_serveDelete h req
    | expire req => exact sourced_serveExpire h now req

end

/-! ## Nodes -/

/-- What a node holds and is about to send meets `G`. -/
structure Node.Sourced (G : Key → Value → Prop) (n : Node) : Prop where
  held : n.server.store.AllHeld G
  sends : ∀ send ∈ n.sends, send.req.Sourced G

section
variable {G : Key → Value → Prop}

/-- A section of a callback. -/
theorem sourced_section {env : Env} {w : Wired} (hs : w.server.store.AllHeld G)
    (hw : ∀ send ∈ w.sends, send.req.Sourced G) {ord : RangeOrder Key Entry} {now : Time}
    {event : MembershipEvent} {stage : Option Wired.Stage} {r : Wired × Option Wired.Stage}
    (heff : Wired.SectionEffect env w ord now event stage r) :
    r.1.server.store.AllHeld G ∧ ∀ send ∈ r.1.sends, send.req.Sourced G := by
  cases heff with
  | idle | added | removed | connected | closed => exact ⟨hs, hw⟩
  | @replicated rm hrm =>
    refine ⟨hs, fun send hsend => ?_⟩
    rcases List.mem_append.1 hsend with hsend | hsend
    · exact hw send hsend
    · obtain ⟨-, hscan, -⟩ := reReplicate_spec rm w.server.ring ord w.server.store now
      obtain ⟨v, hv, -, -, seq, hreq⟩ := hscan send hsend
      rw [hreq]
      exact fun _ => hs.visits hv

theorem Node.Sourced.step {env : Env} {resolve : GoString → Option UDPAddr} (hG : ShardClosed G)
    {n : Node} (h : n.Sourced G) (a : Node.Act)
    (hreq : ∀ now req, a = .request now req → req.Sourced G)
    (hrep : ∀ now req, a = .replicate now req → req.Sourced G) :
    (n.step env resolve a).Sourced G := by
  cases a with
  | swim a => exact ⟨h.held, h.sends⟩
  | handle event =>
    obtain ⟨w, next, heff, he⟩ := n.handle_section env resolve event default 0
    obtain ⟨hheld, hsends⟩ := sourced_section h.held h.sends heff
    rw [he]
    exact ⟨hheld, hsends⟩
  | resume i ord now =>
    rcases n.resume_section env resolve i ord now with he | ⟨cb, w, next, -, heff, he⟩
    · rwa [he]
    · obtain ⟨hheld, hsends⟩ := sourced_section h.held h.sends heff
      rw [he]
      exact ⟨hheld, hsends⟩
  | request now req =>
    have hh := sourced_handle hG h.held now (hreq now req rfl)
    refine ⟨hh.store, fun send hs => ?_⟩
    rcases List.mem_append.1 hs with hs | hs
    · exact h.sends send hs
    · exact hh.sends send hs
  | replicate now req =>
    refine ⟨?_, h.sends⟩
    show (n.server.replicate now req).store.AllHeld G
    have hr := hrep now req rfl
    unfold CacheServer.replicate
    split
    · rename_i hop
      exact h.held.set (hr hop) _
    · exact h.held.delete
    · exact h.held

end

/-! ## The fleet -/

section
variable {G G' : Key → Value → Prop} (hmono : ∀ k v, G k v → G' k v)
include hmono

theorem Node.Sourced.mono {n : Node} (h : n.Sourced G) : n.Sourced G' where
  held items hitems k e he := hmono k e.value (h.held items hitems k e he)
  sends send hs hop := hmono _ _ (h.sends send hs hop)

theorem Response.Sourced.mono {req : Request} {resp : Response} (h : resp.Sourced G req) :
    resp.Sourced G' req := by
  intro r hr
  exact ⟨(h r hr).1, fun hf => hmono _ _ ((h r hr).2 hf)⟩

end

/-- Some client has set this value, under the key or under a key that it is a copy of. -/
def Genuine (issued : List Request) (k : Key) (v : Value) : Prop :=
  ∃ r : SetRequest, .set r ∈ issued ∧ r.value = v ∧ CopyOf r.key k

section
variable {issued : List Request}

theorem shardClosed_genuine (issued : List Request) : ShardClosed (Genuine issued) := by
  rintro k v i ⟨r, hr, hv, hk⟩
  exact ⟨r, hr, hv, hk.shard i⟩

theorem Genuine.mono {more : List Request} {k : Key} {v : Value} (h : Genuine issued k v) :
    Genuine (issued ++ more) k v := by
  obtain ⟨r, hr, hv, hk⟩ := h
  exact ⟨r, List.mem_append_left _ hr, hv, hk⟩

/-- A request that was issued writes a genuine value. -/
theorem sourced_of_mem {req : Request} (h : req ∈ issued) : req.Sourced (Genuine issued) := by
  rintro r rfl
  exact ⟨r, h, rfl, .self⟩

end

namespace Fleet

/-- The call is a client's request, or a message with a genuine value. -/
def SourcedCall (issued : List Request) : ServerCall → Prop
  | .request req => req ∈ issued
  | .replicate req => req.Sourced (Genuine issued)

/-- All values in the fleet are genuine: those stored, on their way, and answered. -/
structure Sourced (f : Fleet) : Prop where
  nodes : ∀ x n, f.node x = some n → n.Sourced (Genuine f.issued)
  rpcs : ∀ rpc ∈ f.rpcs, SourcedCall f.issued rpc.call
  answers : ∀ a ∈ f.answers, a.1 ∈ f.issued ∧ a.2.Sourced (Genuine f.issued) a.1

theorem SourcedCall.mono {issued more : List Request} {call : ServerCall}
    (h : SourcedCall issued call) : SourcedCall (issued ++ more) call := by
  cases call with
  | request req => exact List.mem_append_left _ h
  | replicate req => exact fun hop => Genuine.mono (h hop)

theorem sourced_invokePeer {issued : List Request} {cs : CacheServer} {x : NodeID}
    {call : ServerCall} (h : SourcedCall issued call) :
    ∀ rpc ∈ (cs.invokePeer x call).toList, SourcedCall issued rpc.call := by
  intro rpc hrpc
  obtain ⟨rm, -, hrm⟩ := Option.bind_eq_some_iff.1 (Option.mem_toList.1 hrpc)
  obtain ⟨addr, -, rfl⟩ := Option.map_eq_some_iff.1 hrm
  exact h

section
variable {env : NodeID → Env} {resolve : GoString → Option UDPAddr} {addrs : NodeID → Addrs}

theorem sourced_empty : Sourced empty where
  nodes x n h := by cases h
  rpcs rpc h := by cases h
  answers a h := by cases h

/-- A node took a step, and RPCs were received and sent. -/
theorem Sourced.putNode {f : Fleet} (h : f.Sourced) {x : NodeID} {n : Node}
    (hn : n.Sourced (Genuine f.issued)) {rpcs : List Envelope}
    (hrpcs : ∀ rpc ∈ rpcs, SourcedCall f.issued rpc.call) :
    Sourced { f.putNode x n with rpcs } where
  nodes y m hm := by
    rcases node_putNode hm with ⟨-, rfl⟩ | hm
    · exact hn
    · exact h.nodes y m hm
  rpcs := hrpcs
  answers := h.answers

theorem Sourced.step {f : Fleet} {a : Act} (h : f.Sourced) (hena : f.Enabled addrs a) :
    (f.step env resolve addrs a).Sourced := by
  have hG := shardClosed_genuine f.issued
  have herase : ∀ i, ∀ rpc ∈ f.rpcs.eraseIdx i, SourcedCall f.issued rpc.call :=
    fun i rpc hrpc => h.rpcs rpc (List.mem_of_mem_eraseIdx hrpc)
  have hcall : ∀ {i : ℕ} {rpc : Envelope}, f.rpcs[i]? = some rpc → SourcedCall f.issued rpc.call :=
    fun hrpc => h.rpcs _ (List.mem_of_getElem? hrpc)
  have heff := step_effect env resolve addrs f a
  generalize f.step env resolve addrs a = f' at heff ⊢
  cases heff with
  | same => exact h
  | issue addr req =>
    refine ⟨fun x n hn => (h.nodes x n hn).mono fun _ _ => .mono, fun rpc hrpc => ?_,
      fun a ha => ⟨List.mem_append_left _ (h.answers a ha).1, (h.answers a ha).2.mono fun _ _ => .mono⟩⟩
    rcases List.mem_append.1 hrpc with hrpc | hrpc
    · exact (h.rpcs rpc hrpc).mono
    · rw [List.mem_singleton.1 hrpc]
      exact List.mem_append_right _ (List.mem_singleton.2 rfl)
  | lose i => exact ⟨h.nodes, herase i, h.answers⟩
  | @boot x inj vnodeCount replicaCount maxLoadFactor hx =>
    have hn : (Node.start (env x) x (addrs x) inj vnodeCount replicaCount maxLoadFactor).Sourced
        (Genuine f.issued) := ⟨Store.allHeld_newWithShards 256, fun send hs => by cases hs⟩
    have hput := h.putNode (x := x) hn h.rpcs
    exact ⟨hput.nodes, hput.rpcs, hput.answers⟩
  | @forward x n i now rpc req primary hn hrpc hreq hf =>
    refine ⟨h.nodes, fun rpc' hrpc' => ?_, h.answers⟩
    rcases List.mem_append.1 hrpc' with hrpc' | hrpc'
    · exact herase i rpc' hrpc'
    · exact sourced_invokePeer (hreq ▸ hcall hrpc) rpc' hrpc'
  | @answer x n i now rpc req resp sends hn hrpc hreq hh =>
    have hmem : req ∈ f.issued := by simpa [hreq, SourcedCall] using hcall hrpc
    have hs := sourced_handle hG (h.nodes x n hn).held now (sourced_of_mem hmem)
    have hstep : (n.step (env x) resolve (.request now req)).Sourced (Genuine f.issued) := by
      refine (h.nodes x n hn).step hG _ (fun _ _ he => ?_) fun _ _ he => by cases he
      cases he
      exact sourced_of_mem hmem
    have hput := h.putNode (x := x) hstep (herase i)
    refine ⟨hput.nodes, hput.rpcs, fun a ha => ?_⟩
    rcases List.mem_append.1 ha with ha | ha
    · exact h.answers a ha
    · rw [List.mem_singleton.1 ha]
      exact ⟨hmem, hs.resp resp sends hh⟩
  | @replicate x n i now rpc req hn hrpc hreq =>
    have hsrc : req.Sourced (Genuine f.issued) := by simpa [hreq, SourcedCall] using hcall hrpc
    refine h.putNode ((h.nodes x n hn).step hG _ (fun _ _ he => by cases he) fun _ _ he => ?_)
      (herase i)
    cases he
    exact hsrc
  | @send x n send hn =>
    obtain ⟨n', hn', hmem⟩ := hena
    obtain rfl : n = n' := Option.some.inj (hn.symm.trans hn')
    have hsrc : SourcedCall f.issued (.replicate send.req) := (h.nodes x n hn).sends send hmem
    have hsend : Node.Sourced (Genuine f.issued) { n with sends := n.sends.erase send } :=
      ⟨(h.nodes x n hn).held, fun send' hs =>
        (h.nodes x n hn).sends send' (List.mem_of_mem_erase hs)⟩
    refine h.putNode hsend fun rpc hrpc => ?_
    rcases List.mem_append.1 hrpc with hrpc | hrpc
    · exact h.rpcs rpc hrpc
    · exact sourced_invokePeer hsrc rpc hrpc
  | @gossip x n a hn =>
    exact h.putNode ((h.nodes x n hn).step hG _ (fun _ _ he => by cases he)
      fun _ _ he => by cases he) h.rpcs
  | @handle x n event hn =>
    exact h.putNode ((h.nodes x n hn).step hG _ (fun _ _ he => by cases he)
      fun _ _ he => by cases he) h.rpcs
  | @resume x n i ord now hn =>
    exact h.putNode ((h.nodes x n hn).step hG _ (fun _ _ he => by cases he)
      fun _ _ he => by cases he) h.rpcs
  | @sweep x n index passes store hn hs =>
    have hsweep : Node.Sourced (Genuine f.issued) { n with server := { n.server with store } } :=
      ⟨(h.nodes x n hn).held.sweep hs, (h.nodes x n hn).sends⟩
    exact h.putNode hsweep h.rpcs
  | @decay x n hn =>
    have hdecay : Node.Sourced (Genuine f.issued) { n with
        server := { n.server with
          hotKeyMitigator := n.server.hotKeyMitigator.map fun mt =>
            { mt with detector := mt.detector.decay } } } :=
      ⟨(h.nodes x n hn).held, (h.nodes x n hn).sends⟩
    exact h.putNode hdecay h.rpcs
  | @crash x n hn =>
    refine ⟨fun y m hm => ?_, h.rpcs, h.answers⟩
    by_cases hy : y = x
    · simp [hy] at hm
    · exact h.nodes y m (by simpa [Function.update_of_ne hy] using hm)

theorem Reached.sourced {f : Fleet} (h : Reached env resolve addrs f) : f.Sourced := by
  obtain ⟨acts, halong, rfl⟩ := h
  exact halong.inv (fun _ _ hs ha => hs.step ha) sourced_empty

/-- **No value comes out of thin air.**  In every run of a fleet, with messages lost and reordered,
    members joining and failing, processes crashing and restarting, keys split and replicated anew:
    every value that a store returns, that a replication message carries or that a handler answers
    for a key was set by some client, under this key or under a key that it is a copy of; for a
    key that is no shard copy, under this very key. -/
theorem values_are_genuine (f : Fleet) (hf : Reached env resolve addrs f) :
    (∀ x n, f.node x = some n → ∀ now key v, (n.server.store.get now key).1 = some v →
      Genuine f.issued key v) ∧
    (∀ x n, f.node x = some n → ∀ send ∈ n.sends, send.req.op = .set →
      Genuine f.issued send.req.key send.req.value) ∧
    ∀ req resp, (req, .get resp) ∈ f.answers → req ∈ f.issued ∧ resp.key = req.key ∧
      (resp.found = true → Genuine f.issued req.key resp.value ∧
        (¬ IsShardKey req.key → ∃ r : SetRequest, .set r ∈ f.issued ∧ r.key = req.key ∧
          r.value = resp.value)) := by
  have hs := hf.sourced
  refine ⟨fun x n hn now key v hv => (hs.nodes x n hn).held.get_fst hv,
    fun x n hn => (hs.nodes x n hn).sends, fun req resp hmem => ?_⟩
  obtain ⟨hreq, hresp⟩ := hs.answers _ hmem
  obtain ⟨hkey, hfound⟩ := hresp resp rfl
  refine ⟨hreq, hkey, fun hf => ⟨hfound hf, fun hk => ?_⟩⟩
  obtain ⟨r, hr, hv, hcopy⟩ := hfound hf
  exact ⟨r, hr, hcopy.eq hk, hv⟩

end

/-- One node, a `Set` and a `Get`. -/
noncomputable def writesAndReads : List Act :=
  [.boot (ascii ['a']) none 1 2 0, .issue [] (.set ⟨[1], [7], 0⟩), .node (ascii ['a']) (.serve 0 0),
    .issue [] (.get ⟨[1]⟩), .node (ascii ['a']) (.serve 0 1)]

/-- The fleet after these. -/
noncomputable def writtenAndRead : Fleet :=
  run (step (fun _ => Wired.env) some fun _ => ⟨[], [], []⟩) empty writesAndReads

theorem writtenAndRead_reached :
    Reached (fun _ => Wired.env) some (fun _ => ⟨[], [], []⟩) writtenAndRead := by
  refine ⟨writesAndReads, ?_, rfl⟩
  simp only [writesAndReads, along_cons]
  exact ⟨trivial, trivial, ⟨⟨[], none, .request (.set ⟨[1], [7], 0⟩)⟩, by decide +kernel, rfl⟩,
    trivial, ⟨⟨[], none, .request (.get ⟨[1]⟩)⟩, by decide +kernel, rfl⟩, trivial⟩

theorem values_are_genuine_read :
    ∃ r : SetRequest, .set r ∈ writtenAndRead.issued ∧ r.key = [1] ∧ r.value = [7] :=
  (((values_are_genuine writtenAndRead writtenAndRead_reached).2.2 (.get ⟨[1]⟩)
    ⟨[1], [7], true, 0, false⟩ (by decide +kernel)).2.2 rfl).2
      (not_isShardKey_of_length (by decide))

end Fleet

end DistCache
