/-
  Sequence numbers of concurrent writes.

  The messages of a primary are numbered in the order of the numbering steps, which need
  not be the order of the operations on its store.  A secondary that applies them in the order of
  their numbers ends with what the message numbered last carries.
-/
import DistCache.Handlers
import DistCache.Proof.Converge

namespace DistCache

open Lib CacheServer

/-! ## The shape of an entry -/

/-- The value of an entry, and whether it expires. -/
def Entry.shape (e : Entry) : Value × Bool := (e.value, e.expiresAt.isSome)

/-- What a server has for a key, up to the time of expiry. -/
def CacheServer.shapeOf (cs : CacheServer) (k : Key) : Option (Value × Bool) :=
  (cs.store.entry k).map Entry.shape

/-- The shape of the entry that a TTL gives to a value. -/
def shapeOfTtl (value : Value) (ttlMs : Int64) : Value × Bool := (value, decide (0 < ttlOfMs ttlMs))

theorem shape_expiryOf (now : Time) (value : Value) (ttlMs : Int64) :
    Entry.shape ⟨value, Store.expiryOf now (ttlOfMs ttlMs)⟩ = shapeOfTtl value ttlMs := by
  unfold Entry.shape shapeOfTtl Store.expiryOf
  split_ifs with h <;> simp [h]

/-- The shape that a replicated write leaves in the store. -/
def carries (m : ReplicateRequest) : Option (Value × Bool) :=
  if m.op = .set then some (shapeOfTtl m.value m.ttlMs) else none

/-- `m` is a write of `k`. -/
def IsMessage (k : Key) (m : ReplicateRequest) : Prop :=
  m.key = k ∧ (m.op = .set ∨ m.op = .delete)

theorem shapeOf_replicate {k : Key} {m : ReplicateRequest} (h : IsMessage k m) (cs : CacheServer)
    (now : Time) : (cs.replicate now m).shapeOf k = carries m := by
  obtain ⟨rfl, hop | hop⟩ := h
  · simp only [shapeOf, replicate, hop, Store.entry_set, if_true, Option.map_some, shape_expiryOf,
      carries]
  · simp only [shapeOf, replicate, hop, Store.entry_delete, if_true, Option.map_none, carries,
      reduceCtorEq, if_false]

/-- A secondary ends with what the last message delivered to it carries. -/
theorem shapeOf_receive {k : Key} {cs : CacheServer} {delivered : List (Time × ReplicateRequest)}
    (h : ∀ a ∈ delivered, IsMessage k a.2) :
    (run receive cs delivered).shapeOf k =
      ((delivered.map Prod.snd).map carries).getLastD (cs.shapeOf k) := by
  rw [List.map_map]
  exact (Along.of_forall h cs).last_write (fun cs => cs.shapeOf k) (fun a => carries a.2)
    fun cs a ha => shapeOf_replicate ha cs a.1

/-! ## One step -/

namespace Busy

/-- What a handler does after its operation on the store, if nothing comes in between. -/
theorem ifPrimary_steps (cs : CacheServer) (sends : List Send) (p : Pending)
    (rest : List Send × CacheServer)
    (hnot : (∀ rm, cs.replicationMgr = some rm → rm.isPrimary cs.ring p.key = false) →
      rest = ([], cs))
    (hprimary : ∀ rm, cs.replicationMgr = some rm → rm.isPrimary cs.ring p.key = true →
      ∃ acts, Along step (Enabled p.key) ⟨cs, [p], sends⟩ acts ∧
        run step ⟨cs, [p], sends⟩ acts = ⟨rest.2, [], sends ++ rest.1⟩) :
    ∃ acts, Along step (Enabled p.key) (ifPrimary ⟨cs, [], sends⟩ p) acts ∧
      run step (ifPrimary ⟨cs, [], sends⟩ p) acts = ⟨rest.2, [], sends ++ rest.1⟩ := by
  rcases hrm : cs.replicationMgr with _ | rm
  · rw [hnot (by simp [hrm])]
    exact ⟨[], trivial, by simp [ifPrimary, hrm]⟩
  · by_cases hp : rm.isPrimary cs.ring p.key = true
    · have heq : ifPrimary ⟨cs, [], sends⟩ p = ⟨cs, [p], sends⟩ := by simp [ifPrimary, hrm, hp]
      rw [heq]
      exact hprimary rm hrm hp
    · rw [hnot (by simpa [hrm] using hp)]
      exact ⟨[], trivial, by simp [ifPrimary, hrm, hp]⟩

/-- A node that is not the primary does not replicate. -/
theorem ifPrimary_of_not_primary (cs : CacheServer) (key : Key)
    (f : ReplicationManager → ReplicationManager × List Send)
    (h : ∀ rm, cs.replicationMgr = some rm → rm.isPrimary cs.ring key = false) :
    cs.ifPrimary key f = ([], cs) := by
  rcases hrm : cs.replicationMgr with _ | rm
  · simp [CacheServer.ifPrimary, hrm]
  · simp [CacheServer.ifPrimary, hrm, h rm hrm]

/-- The steps of `Expire` after the entry was found. -/
theorem replicateExpire_steps (cs : CacheServer) (now : Time) (req : ExpireRequest)
    (sends : List Send) :
    ∃ acts, Along step (Enabled req.key) (ifPrimary ⟨cs, [], sends⟩ (.readBack req.key req.ttlMs))
        acts ∧
      run step (ifPrimary ⟨cs, [], sends⟩ (.readBack req.key req.ttlMs)) acts =
        ⟨(cs.replicateExpire now req).2, [], sends ++ (cs.replicateExpire now req).1⟩ := by
  refine ifPrimary_steps cs sends (.readBack req.key req.ttlMs) (cs.replicateExpire now req) ?_ ?_
  · intro h
    rcases hrm : cs.replicationMgr with _ | rm
    · simp only [replicateExpire, hrm]
    · have hp : rm.isPrimary cs.ring req.key = false := h rm hrm
      simp [replicateExpire, hrm, hp]
  · intro rm hrm hp
    dsimp only [Pending.key] at hrm hp
    rcases hg : cs.store.get now req.key with ⟨_ | value, store⟩
    · refine ⟨[.resume now (.readBack req.key req.ttlMs)],
        ⟨List.mem_singleton_self _, trivial⟩, ?_⟩
      simp [step, resume, withStore, hg, replicateExpire, hrm, hp]
    · refine ⟨[.resume now (.readBack req.key req.ttlMs),
        .resume now (.replicateWrite req.key value req.ttlMs)],
        ⟨List.mem_singleton_self _, ?_, trivial⟩, ?_⟩
      · simp [step, resume, withStore, hg, Enabled]
      · simp [step, resume, withStore, hg, number, replicateExpire, hrm, hp]

/-- The steps of one request, without others in between, are the handler of the request. -/
theorem serve_steps (cs : CacheServer) (now : Time) (req : Request) (sends : List Send) :
    ∃ acts, Along step (Enabled req.key) (start ⟨cs, [], sends⟩ now req) acts ∧
      run step (start ⟨cs, [], sends⟩ now req) acts =
        ⟨(cs.serve now req).2, [], sends ++ (cs.serve now req).1.sends⟩ := by
  cases req with
  | get req =>
    obtain ⟨isHot, hr⟩ := cs.serveGet_fst now req.key
    have hsends : (cs.serveGet now req).1.sends = [] := by rw [hr]; rfl
    exact ⟨[], trivial, by simp only [run_nil, start, serve, hsends, List.append_nil]⟩
  | set req =>
    refine ifPrimary_steps { cs with store := cs.write now req.key req.value (ttlOfMs req.ttlMs) }
      sends (.replicateWrite req.key req.value req.ttlMs)
      (CacheServer.ifPrimary _ req.key fun rm =>
        rm.replicateWrite cs.ring req.key req.value req.ttlMs) (ifPrimary_of_not_primary _ req.key _) ?_
    intro rm hrm hp
    refine ⟨[.resume now (.replicateWrite req.key req.value req.ttlMs)],
      ⟨List.mem_singleton_self _, trivial⟩, ?_⟩
    dsimp only [Pending.key] at hrm hp
    simp [step, resume, number, CacheServer.ifPrimary, hrm, hp]
  | delete req =>
    refine ifPrimary_steps { cs with store := (cs.store.delete req.key).2 } sends
      (.replicateDelete req.key)
      (CacheServer.ifPrimary { cs with store := (cs.store.delete req.key).2 } req.key fun rm =>
        rm.replicateDelete cs.ring req.key)
      (ifPrimary_of_not_primary _ req.key _) ?_
    intro rm hrm hp
    refine ⟨[.resume now (.replicateDelete req.key)], ⟨List.mem_singleton_self _, trivial⟩, ?_⟩
    dsimp only [Pending.key] at hrm hp
    simp [step, resume, number, CacheServer.ifPrimary, hrm, hp]
  | expire req =>
    simp only [start, serve, serveExpire, Request.key]
    rcases cs.store.expire now req.key (ttlOfMs req.ttlMs) with ⟨_ | _, store⟩
    · exact ⟨[], trivial, by simp [withStore, Handled.sends]⟩
    · exact replicateExpire_steps { cs with store } now req sends

/-- A message is numbered while the store has what it carries, and `Expire` reads back a
    value. -/
def InOrder (b : Busy) : Act → Prop
  | .start _ _ => True
  | .resume _ (.replicateWrite key value ttlMs) =>
    b.server.shapeOf key = some (shapeOfTtl value ttlMs)
  | .resume _ (.replicateDelete key) => b.server.shapeOf key = none
  | .resume now (.readBack key _) => (b.server.store.get now key).1 ≠ none

instance (b : Busy) : ∀ a, Decidable (b.InOrder a)
  | .start _ _ => inferInstanceAs (Decidable True)
  | .resume _ (.replicateWrite _ _ _) => inferInstanceAs (Decidable (_ = _))
  | .resume _ (.replicateDelete _) => inferInstanceAs (Decidable (_ = _))
  | .resume _ (.readBack _ _) => inferInstanceAs (Decidable (_ ≠ _))

/-- A step that numbers no message. -/
structure Quiet (k : Key) (b : Busy) (a : Act) (b' : Busy) : Prop where
  sameWiring : SameWiring b.server b'.server
  replicationMgr : b'.server.replicationMgr = b.server.replicationMgr
  sends : b'.sends = b.sends
  pending : ∀ p ∈ b'.pending, p ∈ b.pending ∨ p.key = k
  /-- an operation on the store is followed by a message -/
  shape : b.InOrder a → b'.pending ≠ [] ∨
    b'.pending = b.pending ∧ b'.server.shapeOf k = b.server.shapeOf k

/-- A step that numbers the message `m`. -/
structure Numbers (k : Key) (x : NodeID) (b : Busy) (a : Act) (b' : Busy) (m : ReplicateRequest) :
    Prop where
  sameWiring : SameWiring b.server b'.server
  replicationMgr : ∃ rm, b.server.replicationMgr = some rm ∧ m.sequence = rm.sequence + 1 ∧
    ∃ rm', b'.server.replicationMgr = some rm' ∧ rm'.sequence = rm.sequence + 1
  isMessage : IsMessage k m
  messages : ∃ l ≠ [], (∀ m' ∈ l, m' = m) ∧ messagesTo x b'.sends = messagesTo x b.sends ++ l
  pending : b'.pending ⊆ b.pending
  shape : b.InOrder a → b'.server.shapeOf k = carries m

variable {k : Key} {x : NodeID} {b : Busy} {a : Act}

/-- Handlers of the primary go on after their operation on the store. -/
theorem ifPrimary_eq (h : Replicates k x b.server) (store : Store) {p : Pending} (hp : p.key = k) :
    (b.withStore store).ifPrimary p =
      { b.withStore store with pending := b.pending ++ [p] } := by
  obtain ⟨rm, hrm, hprim, -⟩ := h
  simp only [ifPrimary, withStore, hrm, hp, hprim, if_true]

/-- The start of a handler that goes on. -/
theorem Quiet.started (h : Replicates k x b.server) (store : Store) {p : Pending} (hp : p.key = k)
    (a : Act) : Quiet k b a ((b.withStore store).ifPrimary p) := by
  rw [ifPrimary_eq h store hp]
  constructor
  · exact ⟨rfl, rfl, rfl⟩
  · rfl
  · rfl
  · intro q hq
    rcases List.mem_append.1 hq with hq | hq
    · exact Or.inl hq
    · rw [List.mem_singleton.1 hq]; exact Or.inr hp
  · intro _
    exact Or.inl (by simp)

theorem start_quiet (h : Replicates k x b.server) {now : Time} {req : Request}
    (hreq : b.Enabled k (.start now req)) :
    Quiet k b (.start now req) (b.start now req) := by
  cases req with
  | get req => exact hreq.elim
  | set req =>
    obtain rfl : req.key = k := hreq
    exact Quiet.started h _ rfl _
  | delete req =>
    obtain rfl : req.key = k := hreq
    exact Quiet.started h _ rfl _
  | expire req =>
    obtain rfl : req.key = k := hreq
    simp only [start]
    have hfst := b.server.store.expire_fst now req.key (ttlOfMs req.ttlMs)
    have hentry := b.server.store.entry_expire now req.key req.key (ttlOfMs req.ttlMs)
    rcases hexp : b.server.store.expire now req.key (ttlOfMs req.ttlMs) with ⟨_ | _, store⟩
    · refine ⟨⟨rfl, rfl, rfl⟩, rfl, rfl, fun p hp => Or.inl hp, fun _ => Or.inr ⟨rfl, ?_⟩⟩
      -- the key has no entry, or an expired one, which stays
      have hstore : store.entry req.key = b.server.store.entry req.key := by
        rw [hexp, if_pos rfl] at hentry
        rw [hexp] at hfst
        rcases he : b.server.store.entry req.key with _ | e
        · rw [he] at hentry; exact hentry
        · rw [he] at hentry hfst
          rcases hx : e.isExpired now with _ | _
          · simp [Option.filter, hx] at hfst
          · simpa [hx] using hentry
      simp only [withStore, shapeOf, hstore]
    · exact Quiet.started h _ rfl _

/-- The numbering of a message. -/
theorem number_numbers (h : Replicates k x b.server) {a : Act} {p : Pending}
    (f : ReplicationManager → UInt64 → ReplicateRequest) (hmsg : ∀ rm seq, IsMessage k (f rm seq))
    (hseq : ∀ rm seq, (f rm seq).sequence = seq)
    (hshape : ∀ rm seq, b.InOrder a → b.server.shapeOf k = carries (f rm seq)) :
    ∃ m, Numbers k x b a ({ b with pending := b.pending.erase p }.number fun rm =>
      rm.replicate b.server.ring k (f rm)) m := by
  obtain ⟨rm, hrm, -, hx⟩ := h
  have hrep : rm.replicate b.server.ring k (f rm) = ({ rm with sequence := rm.sequence + 1 },
      (rm.getSecondaries b.server.ring k).map fun id => ⟨id, f rm (rm.sequence + 1)⟩) := by
    refine Prod.ext ?_ (replicate_snd k (f rm))
    unfold ReplicationManager.replicate
    split
    · rename_i he; rw [he] at hx; exact absurd hx List.not_mem_nil
    · rfl
  simp only [number, hrm, hrep]
  obtain ⟨hne, hall⟩ := messagesTo_map (f rm (rm.sequence + 1)) hx
  refine ⟨f rm (rm.sequence + 1), ⟨rfl, rfl, by rw [hrm]; rfl⟩, ⟨rm, hrm, hseq _ _, _, rfl, rfl⟩,
    hmsg _ _, ⟨_, hne, hall, ?_⟩, List.erase_subset, hshape _ _⟩
  simp [messagesTo]

/-- **What a step can do.** -/
theorem step_cases (h : Replicates k x b.server) (hp : ∀ p ∈ b.pending, p.key = k)
    (ha : b.Enabled k a) :
    Quiet k b a (b.step a) ∨ ∃ m, Numbers k x b a (b.step a) m := by
  rcases a with ⟨now, req⟩ | ⟨now, p⟩
  · exact Or.inl (start_quiet h ha)
  · obtain hkey := hp p ha
    cases p with
    | replicateWrite key value ttlMs =>
      obtain rfl : key = k := hkey
      exact Or.inr (number_numbers h (fun rm seq => ⟨key, value, ttlMs, seq, rm.selfID, .set⟩)
        (fun _ _ => ⟨rfl, Or.inl rfl⟩) (fun _ _ => rfl) fun _ _ ho => ho)
    | replicateDelete key =>
      obtain rfl : key = k := hkey
      exact Or.inr (number_numbers h (fun rm seq => ⟨key, [], 0, seq, rm.selfID, .delete⟩)
        (fun _ _ => ⟨rfl, Or.inr rfl⟩) (fun _ _ => rfl) fun _ _ ho => ho)
    | readBack key ttlMs =>
      obtain rfl : key = k := hkey
      left
      have herase : ∀ q ∈ b.pending.erase (.readBack key ttlMs), q ∈ b.pending ∨ q.key = key :=
        fun q hq => Or.inl (List.mem_of_mem_erase hq)
      simp only [step, resume]
      rcases hg : b.server.store.get now key with ⟨_ | value, store⟩
      · exact ⟨⟨rfl, rfl, rfl⟩, rfl, rfl, herase, fun ho => absurd (congrArg Prod.fst hg) ho⟩
      · refine ⟨⟨rfl, rfl, rfl⟩, rfl, rfl, ?_, fun _ => Or.inl (by simp)⟩
        intro q hq
        rcases List.mem_append.1 hq with hq | hq
        · exact herase q hq
        · rw [List.mem_singleton.1 hq]; exact Or.inr rfl

/-! ## Whole runs -/

/-- The counter has not reached its largest value. -/
def NoWrap (b : Busy) : Prop :=
  ∀ rm ∈ b.server.replicationMgr, rm.sequence.toNat + 1 < 2 ^ 64

instance (b : Busy) : Decidable b.NoWrap := by unfold NoWrap; infer_instance

/-- The messages to `x` are numbered in the order in which they are sent, up to the
    counter. -/
structure Numbered (k : Key) (x : NodeID) (b : Busy) : Prop where
  replicates : Replicates k x b.server
  pending : ∀ p ∈ b.pending, p.key = k
  isMessage : ∀ m ∈ messagesTo x b.sends, IsMessage k m
  below : ∀ m ∈ messagesTo x b.sends, ∀ rm, b.server.replicationMgr = some rm →
    m.sequence ≤ rm.sequence
  ordered : (messagesTo x b.sends).Pairwise fun m m' => m.sequence < m'.sequence ∨ m = m'

theorem Numbered.step (h : Numbered k x b) (ha : b.Enabled k a) (hw : b.NoWrap) :
    Numbered k x (b.step a) := by
  rcases step_cases h.replicates h.pending ha with hq | ⟨m, hm⟩
  · refine ⟨h.replicates.of_sameWiring hq.sameWiring, ?_, ?_, ?_, ?_⟩
    · intro p hp
      exact (hq.pending p hp).elim (h.pending p) id
    · rw [hq.sends]; exact h.isMessage
    · rw [hq.sends, hq.replicationMgr]; exact h.below
    · rw [hq.sends]; exact h.ordered
  · obtain ⟨l, -, hl, hmsgs⟩ := hm.messages
    obtain ⟨rm, hrm, hseq, rm', hrm', hseq'⟩ := hm.replicationMgr
    have hroom := hw rm hrm
    have hlt : rm.sequence < rm.sequence + 1 := lt_succ_of_toNat_lt (by omega)
    refine ⟨h.replicates.of_sameWiring hm.sameWiring, fun p hp => h.pending p (hm.pending hp),
      ?_, ?_, ?_⟩
    · intro m' hm'
      rw [hmsgs] at hm'
      rcases List.mem_append.1 hm' with hm' | hm'
      · exact h.isMessage m' hm'
      · rw [hl m' hm']; exact hm.isMessage
    · intro m' hm' rm'' hrm''
      obtain rfl : rm' = rm'' := Option.some.inj (hrm'.symm.trans hrm'')
      rw [hseq']
      rw [hmsgs] at hm'
      rcases List.mem_append.1 hm' with hm' | hm'
      · exact UInt64.le_trans (h.below m' hm' rm hrm) (UInt64.le_of_lt hlt)
      · rw [hl m' hm', hseq]; exact UInt64.le_refl _
    · rw [hmsgs, List.pairwise_append]
      refine ⟨h.ordered, ?_, ?_⟩
      · refine List.pairwise_of_forall_mem_list fun m₁ h₁ m₂ h₂ => Or.inr ?_
        rw [hl m₁ h₁, hl m₂ h₂]
      · intro m₁ h₁ m₂ h₂
        rw [hl m₂ h₂, hseq]
        exact Or.inl (UInt64.lt_of_le_of_lt (h.below m₁ h₁ rm hrm) hlt)

/-- The primary has what the message numbered last carries, or a handler is about to number
    one. -/
def InSync (k : Key) (x : NodeID) (initial : Option (Value × Bool)) (b : Busy) : Prop :=
  b.server.shapeOf k = ((messagesTo x b.sends).map carries).getLastD initial ∨ b.pending ≠ []

theorem InSync.step {initial : Option (Value × Bool)} (hn : Numbered k x b)
    (h : InSync k x initial b) (ha : b.Enabled k a) (ho : b.InOrder a) :
    InSync k x initial (b.step a) := by
  rcases step_cases hn.replicates hn.pending ha with hq | ⟨m, hm⟩
  · rcases hq.shape ho with hp | ⟨hp, hs⟩
    · exact Or.inr hp
    · rcases h with h | h
      · left; rw [hs, hq.sends, h]
      · right; rw [hp]; exact h
  · left
    obtain ⟨l, hne, hl, hmsgs⟩ := hm.messages
    obtain ⟨l, m', rfl⟩ := List.eq_nil_or_concat l |>.resolve_left hne
    have hm' : m' = m := hl m' (by simp)
    rw [hm.shape ho, hmsgs]
    simp [hm']

/-- Messages delivered in the order of their numbers are delivered in the order in which
    they were numbered. -/
theorem Numbered.delivered_eq (h : Numbered k x b) {delivered : List (Time × ReplicateRequest)}
    (hd : (delivered.map Prod.snd).Perm (messagesTo x b.sends))
    (hs : delivered.Pairwise fun m m' => m.2.sequence ≤ m'.2.sequence) :
    delivered.map Prod.snd = messagesTo x b.sends := by
  -- messages with one number are equal
  have hsymm : Std.Symm fun m m' : ReplicateRequest => m.sequence = m'.sequence → m = m' :=
    ⟨fun m m' h he => (h he.symm).symm⟩
  have hsame : (messagesTo x b.sends).Pairwise fun m m' => m.sequence = m'.sequence → m = m' := by
    refine h.ordered.imp ?_
    rintro m m' (hlt | rfl) he
    · exact absurd he (UInt64.ne_of_lt hlt)
    · rfl
  have hs' : (delivered.map Prod.snd).Pairwise fun m m' => m.sequence ≤ m'.sequence :=
    List.pairwise_map.2 hs
  refine List.Perm.eq_of_pairwise ?_ hs' (h.ordered.imp ?_) hd
  · intro m m' hm hm' hle hle'
    exact hsame.forall_of_forall (fun _ _ _ => rfl) (hd.mem_iff.1 hm) hm'
      (UInt64.le_antisymm hle hle')
  · rintro m m' (hlt | rfl)
    · exact UInt64.le_of_lt hlt
    · exact UInt64.le_refl _

end Busy

/-- **When sequence order is write order.**  Write requests for `k` run concurrently on its
    primary, step by step in any order, and the secondary `x` applies their messages in the
    order of their numbers.  It ends with the primary's entry, up to the time of expiry,
    exactly if the message numbered last carries that entry; so it does if every message is
    numbered while the store has what it carries, and `Expire` reads back a value. -/
theorem sequence_order_iff {k : Key} {x : NodeID} {b : Busy} {sec : CacheServer}
    (hb : Replicates k x b.server) (hidle : b.pending = [] ∧ b.sends = [])
    (hsec : sec.shapeOf k = b.server.shapeOf k) (acts : List Busy.Act)
    (hacts : Along Busy.step (fun b a => b.Enabled k a ∧ b.NoWrap) b acts)
    (hdone : (run Busy.step b acts).pending = []) (delivered : List (Time × ReplicateRequest))
    (hd : (delivered.map Prod.snd).Perm (messagesTo x (run Busy.step b acts).sends))
    (hs : delivered.Pairwise fun m m' => m.2.sequence ≤ m'.2.sequence) :
    let b' := run Busy.step b acts
    ((run receive sec delivered).shapeOf k = b'.server.shapeOf k ↔
      ((messagesTo x b'.sends).map carries).getLastD (b.server.shapeOf k) =
        b'.server.shapeOf k) ∧
    (Along Busy.step Busy.InOrder b acts →
      (run receive sec delivered).shapeOf k = b'.server.shapeOf k) := by
  intro b'
  have hnum : Busy.Numbered k x b := by
    refine ⟨hb, ?_, ?_, ?_, ?_⟩ <;> simp [hidle, messagesTo]
  have hnum' : Busy.Numbered k x b' :=
    Along.inv (I := Busy.Numbered k x) (fun b a hn ha => hn.step ha.1 ha.2) hacts hnum
  have hshape : (run receive sec delivered).shapeOf k =
      ((messagesTo x b'.sends).map carries).getLastD (b.server.shapeOf k) := by
    have hmsg : ∀ a ∈ delivered, IsMessage k a.2 := fun a ha =>
      hnum'.isMessage _ (hd.mem_iff.1 (List.mem_map_of_mem ha))
    rw [shapeOf_receive hmsg, hnum'.delivered_eq hd hs, hsec]
  rw [hshape]
  refine ⟨Iff.rfl, fun ho => ?_⟩
  have hsync : Busy.InSync k x (b.server.shapeOf k) b := by
    left; simp [hidle, messagesTo]
  obtain ⟨-, hsync'⟩ := Along.inv
    (I := fun b' => Busy.Numbered k x b' ∧ Busy.InSync k x (b.server.shapeOf k) b')
    (fun b a hi ha => ⟨hi.1.step ha.1.1 ha.1.2, hi.2.step hi.1 ha.1.1 ha.2⟩)
    (hacts.and ho) ⟨hnum, hsync⟩
  rcases hsync' with h | h
  · exact h.symm
  · exact absurd hdone h

/-- `a` with no request in progress. -/
def idleBusy : Busy := ⟨pairNode (ascii ['a']), [], []⟩

/-- A `Set` and an `Expire`, one after the other: the secondary has the value, with an
    expiry. -/
theorem sequence_order_sequential :
    (run receive (pairNode (ascii ['b']))
      [(5, ⟨[], [1], 0, 1, ascii ['a'], .set⟩), (6, ⟨[], [1], 9, 2, ascii ['a'], .set⟩)]).shapeOf [] =
      (run Busy.step idleBusy
        [.start 0 (.set ⟨[], [1], 0⟩), .resume 1 (.replicateWrite [] [1] 0),
          .start 2 (.expire ⟨[], 9⟩), .resume 3 (.readBack [] 9),
          .resume 4 (.replicateWrite [] [1] 9)]).server.shapeOf [] := by
  refine (sequence_order_iff replicates_pairNode ⟨rfl, rfl⟩ ?_ _ ?_ ?_ _ ?_ ?_).2 ?_
  all_goals decide +kernel

/-- Two concurrent `Set`s numbered in the other order: the secondary keeps the value that
    the primary has overwritten. -/
theorem sequence_order_reversed :
    Replicates [] (ascii ['b']) idleBusy.server ∧
    (pairNode (ascii ['b'])).shapeOf [] = idleBusy.server.shapeOf [] ∧
    Along Busy.step (fun b a => b.Enabled [] a ∧ b.NoWrap) idleBusy
      [.start 0 (.set ⟨[], [1], 0⟩), .start 1 (.set ⟨[], [2], 0⟩),
        .resume 2 (.replicateWrite [] [2] 0), .resume 3 (.replicateWrite [] [1] 0)] ∧
    let b := run Busy.step idleBusy
      [.start 0 (.set ⟨[], [1], 0⟩), .start 1 (.set ⟨[], [2], 0⟩),
        .resume 2 (.replicateWrite [] [2] 0), .resume 3 (.replicateWrite [] [1] 0)]
    b.pending = [] ∧
    messagesTo (ascii ['b']) b.sends =
      [⟨[], [2], 0, 1, ascii ['a'], .set⟩, ⟨[], [1], 0, 2, ascii ['a'], .set⟩] ∧
    (run receive (pairNode (ascii ['b'])) [(4, ⟨[], [2], 0, 1, ascii ['a'], .set⟩),
      (5, ⟨[], [1], 0, 2, ascii ['a'], .set⟩)]).shapeOf [] = some ([1], false) ∧
    b.server.shapeOf [] = some ([2], false) :=
  ⟨replicates_pairNode, by decide +kernel, by decide +kernel, by decide +kernel,
    by decide +kernel, by decide +kernel, by decide +kernel⟩

end DistCache
