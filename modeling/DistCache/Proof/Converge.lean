/-
  Replicas under any delivery order.

  The primary numbers the replication messages of a key, but a secondary applies
  them in the order of arrival, so it ends with what the last delivered message
  wrote.  It agrees with the primary exactly if that is what the last request
  wrote.
-/
import DistCache.Cluster
import DistCache.Proof.Server

namespace DistCache

open Lib CacheServer

/-- A write of a key without expiry. -/
inductive Write where
  | set (value : Value)
  | delete

/-- What a write leaves in the store. -/
def Write.effect : Write → Option Value
  | .set value => some value
  | .delete => none

def Write.request (k : Key) : Write → Request
  | .set value => .set ⟨k, value, 0⟩
  | .delete => .delete ⟨k⟩

/-- The value a server holds for a key. -/
def CacheServer.valueOf (cs : CacheServer) (k : Key) : Option Value :=
  (cs.store.entry k).map Entry.value

/-- The requests of a sequence of timed writes of `k`. -/
def requestsOf (k : Key) (writes : List (Time × Write)) : List (Time × Request) :=
  writes.map fun a => (a.1, a.2.request k)

section
variable {k : Key} {x : NodeID}

/-- `cs` is the primary of `k`, and `x` one of its secondaries. -/
def Replicates (k : Key) (x : NodeID) (cs : CacheServer) : Prop :=
  ∃ rm, cs.replicationMgr = some rm ∧ rm.isPrimary cs.ring k = true ∧
    x ∈ rm.getSecondaries cs.ring k

theorem Replicates.of_sameWiring {cs cs' : CacheServer} (h : Replicates k x cs)
    (hw : SameWiring cs cs') : Replicates k x cs' := by
  obtain ⟨rm, hrm, hp, hx⟩ := h
  have hm := hw.replicationMgr
  rw [hrm, Option.map_some] at hm
  obtain ⟨rm', hrm', hm⟩ := Option.map_eq_some_iff.1 hm
  refine ⟨rm', hrm', ?_, ?_⟩
  · rw [hw.ring, isPrimary_congr hm]; exact hp
  · rw [hw.ring, getSecondaries_congr hm]; exact hx

/-- The primary serves its writes. -/
theorem Replicates.step_eq {cs : CacheServer} (h : Replicates k x cs) (t : Time) (w : Write) :
    cs.handle t (w.request k) = cs.serve t (w.request k) := by
  obtain ⟨rm, hrm, hp, -⟩ := h
  refine cs.handle_serve t _ ?_
  cases w <;> simp [forwardTarget, hrm, Write.request, Request.serves, Request.key, hp]

theorem Replicates.step {cs : CacheServer} (h : Replicates k x cs) (a : Time × Write) :
    Replicates k x (cs.step (a.1, a.2.request k)) := by
  rw [CacheServer.step, h.step_eq]
  exact h.of_sameWiring (cs.serve_sameWiring ..)

theorem Replicates.valueOf_step {cs : CacheServer} (h : Replicates k x cs) (a : Time × Write) :
    (cs.step (a.1, a.2.request k)).valueOf k = a.2.effect := by
  rw [CacheServer.step, h.step_eq]
  obtain ⟨t, _ | _⟩ := a
  · rename_i value
    rw [valueOf, Write.request, cs.entry_serve_set t (spares_self k), if_pos rfl]
    rfl
  · rw [valueOf, Write.request, cs.entry_serve_delete, if_pos rfl]
    rfl

theorem messagesTo_map {ids : List NodeID} (req : ReplicateRequest) (hx : x ∈ ids) :
    messagesTo x (ids.map fun id => ⟨id, req⟩) ≠ [] ∧
      ∀ m ∈ messagesTo x (ids.map fun id => ⟨id, req⟩), m = req := by
  constructor
  · refine List.ne_nil_of_mem (List.mem_map.2 ⟨⟨x, req⟩, List.mem_filter.2 ⟨?_, ?_⟩, rfl⟩)
    · exact List.mem_map.2 ⟨x, hx, rfl⟩
    · simp
  · intro m hm
    obtain ⟨send, hs, rfl⟩ := List.mem_map.1 hm
    obtain ⟨id, -, rfl⟩ := List.mem_map.1 (List.mem_filter.1 hs).1
    rfl

/-- Each write sends a message to `x`. -/
theorem Replicates.messages_step {cs : CacheServer} (h : Replicates k x cs) (a : Time × Write) :
    messagesTo x (cs.handle a.1 (a.2.request k)).1.sends ≠ [] ∧
      ∀ m ∈ messagesTo x (cs.handle a.1 (a.2.request k)).1.sends, IsWrite k m := by
  rw [h.step_eq]
  obtain ⟨rm, hrm, hp, hx⟩ := h
  obtain ⟨t, _ | _⟩ := a
  · rename_i value
    have hs := ifPrimary_replicate { cs with store := cs.write t k value (ttlOfMs 0) } hrm hp
      fun rm seq => ⟨k, value, 0, seq, rm.selfID, .set⟩
    have he : (cs.serve t (Write.request k (.set value))).1.sends = _ := hs
    rw [he]
    obtain ⟨h1, h2⟩ := messagesTo_map _ hx
    exact ⟨h1, fun m hm => by rw [h2 m hm]; exact ⟨rfl, rfl, Or.inl rfl⟩⟩
  · have hs := ifPrimary_replicate { cs with store := (cs.store.delete k).2 } hrm hp
      fun rm seq => ⟨k, [], 0, seq, rm.selfID, .delete⟩
    have he : (cs.serve t (Write.request k .delete)).1.sends = _ := hs
    rw [he]
    obtain ⟨h1, h2⟩ := messagesTo_map _ hx
    exact ⟨h1, fun m hm => by rw [h2 m hm]; exact ⟨rfl, rfl, Or.inr rfl⟩⟩

/-! ## Whole runs -/

theorem Replicates.messages {cs : CacheServer} (h : Replicates k x cs)
    (writes : List (Time × Write)) :
    (messagesTo x (cs.sendsOf (requestsOf k writes)) = [] ↔ writes = []) ∧
      ∀ m ∈ messagesTo x (cs.sendsOf (requestsOf k writes)), IsWrite k m := by
  induction writes generalizing cs with
  | nil => simp [requestsOf, sendsOf, messagesTo]
  | cons a writes ih =>
    have hcons : messagesTo x (cs.sendsOf (requestsOf k (a :: writes))) =
        messagesTo x (cs.handle a.1 (a.2.request k)).1.sends ++
          messagesTo x ((cs.step (a.1, a.2.request k)).sendsOf (requestsOf k writes)) := by
      simp [requestsOf, sendsOf, messagesTo]
    obtain ⟨hne, hall⟩ := h.messages_step a
    rw [hcons]
    refine ⟨by simp [hne], fun m hm => ?_⟩
    rcases List.mem_append.1 hm with hm | hm
    · exact hall m hm
    · exact (ih (h.step a)).2 m hm

/-- The primary ends with the effect of its last write. -/
theorem Replicates.valueOf_run {cs : CacheServer} (h : Replicates k x cs)
    (writes : List (Time × Write)) :
    (run CacheServer.step cs (requestsOf k writes)).valueOf k =
      (writes.map fun a => a.2.effect).getLastD (cs.valueOf k) := by
  have hrun : run CacheServer.step cs (requestsOf k writes) =
      run (fun cs a => cs.step (a.1, a.2.request k)) cs writes := by
    simp [run, requestsOf, List.foldl_map]
  have halong : Along (fun cs a => cs.step (a.1, a.2.request k)) (fun cs _ => Replicates k x cs)
      cs writes := by
    induction writes generalizing cs with
    | nil => trivial
    | cons a writes ih => exact ⟨h, ih (h.step a) (by simp [run, requestsOf, List.foldl_map])⟩
  rw [hrun]
  exact halong.last_write (fun cs => cs.valueOf k) (fun a => a.2.effect)
    fun _ a hcs => hcs.valueOf_step a

/-- A secondary ends with the effect of the last message delivered to it. -/
theorem valueOf_receive {cs : CacheServer} {delivered : List (Time × ReplicateRequest)}
    (h : ∀ a ∈ delivered, IsWrite k a.2) :
    (run receive cs delivered).valueOf k =
      (delivered.map fun a => effectOf a.2).getLastD (cs.valueOf k) := by
  refine (Along.of_forall h cs).last_write (fun cs => cs.valueOf k) (fun a => effectOf a.2)
    fun cs a ha => ?_
  rw [valueOf, receive, entry_replicate _ _ ha, if_pos rfl, Option.map_map]
  exact Option.map_id_apply

end

/-- **Replicas agree exactly if the last delivered message carries the last write.**
    For writes of `k` executed one after another on its primary `cs`, and any
    order of delivery of their messages to the secondary `x`. -/
theorem replicas_agree_iff (k : Key) (x : NodeID) (cs sec : CacheServer)
    (hcs : Replicates k x cs) (writes : List (Time × Write))
    (delivered : List (Time × ReplicateRequest))
    (hd : (delivered.map Prod.snd).Perm (messagesTo x (cs.sendsOf (requestsOf k writes)))) :
    (run receive sec delivered).valueOf k =
        (run CacheServer.step cs (requestsOf k writes)).valueOf k ↔
      (writes = [] ∧ sec.valueOf k = cs.valueOf k) ∨
        ∃ a ∈ delivered.getLast?, ∃ w ∈ writes.getLast?, effectOf a.2 = w.2.effect := by
  obtain ⟨hnil, hall⟩ := hcs.messages writes
  have hmem : ∀ a ∈ delivered, IsWrite k a.2 := fun a ha =>
    hall _ (hd.mem_iff.1 (List.mem_map.2 ⟨a, ha, rfl⟩))
  have hempty : delivered = [] ↔ writes = [] := by
    rw [← hnil]
    constructor
    · rintro rfl; exact List.nil_perm.1 hd
    · intro h; rw [h] at hd; exact List.map_eq_nil_iff.1 (List.perm_nil.1 hd)
  rw [hcs.valueOf_run writes, valueOf_receive hmem]
  rcases List.eq_nil_or_concat writes with rfl | ⟨ws, w, rfl⟩
  · obtain rfl := hempty.2 rfl
    simp
  · rcases List.eq_nil_or_concat delivered with rfl | ⟨ds, d, rfl⟩
    · simp at hempty
    · simp

/-- Two nodes that replicate every key, as seen by one of them. -/
def pairNode (id : NodeID) : CacheServer :=
  nodeWith .insertion 1 2 id [ascii ['a'], ascii ['b']]

/-- The messages of two writes of the empty key, by its primary `a`. -/
def twoWrites : List (Time × Write) := [(0, .set [1]), (1, .set [2])]

def twoMessages : List (Time × ReplicateRequest) :=
  [(2, ⟨[], [1], 0, 1, ascii ['a'], .set⟩), (3, ⟨[], [2], 0, 2, ascii ['a'], .set⟩)]

theorem replicates_pairNode : Replicates [] (ascii ['b']) (pairNode (ascii ['a'])) :=
  ⟨_, rfl, by decide +kernel, by decide +kernel⟩

theorem twoMessages_perm : (twoMessages.map Prod.snd).Perm
    (messagesTo (ascii ['b']) ((pairNode (ascii ['a'])).sendsOf (requestsOf [] twoWrites))) := by
  decide +kernel

/-- Delivered in order, the messages bring the secondary to the primary's value. -/
theorem replicas_agree_in_order :
    (run receive (pairNode (ascii ['b'])) twoMessages).valueOf [] =
      (run CacheServer.step (pairNode (ascii ['a'])) (requestsOf [] twoWrites)).valueOf [] :=
  (replicas_agree_iff [] (ascii ['b']) (pairNode (ascii ['a'])) (pairNode (ascii ['b']))
    replicates_pairNode twoWrites twoMessages twoMessages_perm).2
    (Or.inr ⟨_, rfl, _, rfl, rfl⟩)

/-- Delivered in the other order, they leave the older value. -/
theorem replicas_diverge_reversed :
    Replicates [] (ascii ['b']) (pairNode (ascii ['a'])) ∧
    (twoMessages.reverse.map Prod.snd).Perm
      (messagesTo (ascii ['b']) ((pairNode (ascii ['a'])).sendsOf (requestsOf [] twoWrites))) ∧
    (run receive (pairNode (ascii ['b'])) twoMessages.reverse).valueOf [] = some [1] ∧
    (run CacheServer.step (pairNode (ascii ['a'])) (requestsOf [] twoWrites)).valueOf [] =
      some [2] :=
  ⟨replicates_pairNode, by decide +kernel, by decide +kernel, by decide +kernel⟩

end DistCache
