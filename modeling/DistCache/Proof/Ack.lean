/-
  Acknowledged writes.

  A node that may not serve a write forwards it to the primary of the key, and answers
  with an error if that fails.  But without a connection to the primary it writes to its
  own store, and answers as if all was well.
-/
import DistCache.Proof.Proxy

namespace DistCache

/-- The server of node `x`, with a replication manager. -/
structure CacheServer.Serves (cs : CacheServer) (x : NodeID) (rm : ReplicationManager) : Prop where
  nodeID : cs.nodeID = x
  manager : cs.replicationMgr = some rm
  selfID : rm.selfID = x

/-- `Set` and `Delete`. -/
def Request.IsWrite : Request → Prop
  | .set _ | .delete _ => True
  | .get _ | .expire _ => False

instance : DecidablePred Request.IsWrite
  | .set _ | .delete _ => inferInstanceAs (Decidable True)
  | .get _ | .expire _ => inferInstanceAs (Decidable False)

/-- What a write leaves at its key. -/
def Request.written (now : Time) : Request → Option Entry
  | .set req => some ⟨req.value, Store.expiryOf now (ttlOfMs req.ttlMs)⟩
  | _ => none

/-- The node that answers a request entering at `x` without an error, directly or through the
    nodes it is forwarded by, and the number of the hop. -/
def Cluster.ackedBy (c : Cluster) (now : ℕ → Time) (delivers : ℕ → Bool) (req : Request)
    (fuel : ℕ) (x : NodeID) : Option (ℕ × NodeID) :=
  let chain := hops (fun _ => c) now delivers req fuel 0 x
  match chain.getLast? with
  | some (y, .reply _ _) => some (chain.length - 1, y)
  | _ => none

namespace CacheServer

variable {cs : CacheServer} {x : NodeID} {rm : ReplicationManager} {req : Request}

theorem Serves.isPrimary_iff (h : cs.Serves x rm) (key : Key) :
    rm.isPrimary cs.ring key = true ↔ rm.getPrimary cs.ring key = some x := by
  rw [ReplicationManager.isPrimary, ReplicationManager.getPrimary, decide_eq_true_eq, h.selfID]

theorem Serves.serves_write (hreq : req.IsWrite) :
    req.serves rm cs.ring req.key = rm.isPrimary cs.ring req.key := by
  cases req with
  | set | delete => rfl
  | get | expire => exact absurd hreq not_false

/-- **When a write is not forwarded**: the node is the primary, or there is no connection to
    it. -/
theorem Serves.forwardTarget_eq_none_iff (h : cs.Serves x rm) (hreq : req.IsWrite) :
    cs.forwardTarget req.serves req.key = none ↔
      ∀ p, rm.getPrimary cs.ring req.key = some p → p ≠ x → p ∉ rm.peerConns := by
  have hserves := h.isPrimary_iff req.key
  rw [← serves_write hreq] at hserves
  simp only [forwardTarget, h.manager, h.nodeID]
  by_cases hprim : rm.getPrimary cs.ring req.key = some x
  · rw [if_pos (hserves.2 hprim)]
    refine iff_of_true rfl fun p hp hne => ?_
    rw [hprim] at hp
    exact absurd (Option.some.inj hp).symm hne
  · rw [if_neg fun hs => hprim (hserves.1 hs)]
    rcases hget : rm.getPrimary cs.ring req.key with _ | p
    · exact iff_of_true rfl fun p hp => by cases hp
    · dsimp only
      split_ifs with hc
      · exact iff_of_false not_false fun hall => hall p rfl hc.1 hc.2
      · exact iff_of_true rfl fun q hq hne hmem => hc (Option.some.inj hq ▸ ⟨hne, hmem⟩)

/-- A write that is served leaves its entry. -/
theorem entry_serve_write (hreq : req.IsWrite) (now : Time) :
    (cs.serve now req).2.store.entry req.key = req.written now := by
  cases req with
  | set req =>
    refine (cs.entry_serve_set now (spares_self req.key) req.value req.ttlMs).trans ?_
    rw [if_pos rfl]
    rfl
  | delete req =>
    refine (cs.entry_serve_delete now req.key req.key).trans ?_
    rw [if_pos rfl]
    rfl
  | get | expire => exact absurd hreq not_false

end CacheServer

namespace Cluster

variable {c : Cluster} {now : ℕ → Time} {delivers : ℕ → Bool} {req : Request} {fuel : ℕ}
  {x p : NodeID} {r : ℕ × NodeID}

/-- The entry node answers itself. -/
theorem ackedBy_serve (hx : (c x).forwardTarget req.serves req.key = none)
    (h : c.ackedBy now delivers req fuel x = some r) : r = (0, x) := by
  cases fuel with
  | zero => cases h
  | succ fuel =>
    have hchain : hops (fun _ => c) now delivers req (fuel + 1) 0 x =
        [(x, ((c x).serve (now 0) req).1)] := hops_serve hx now delivers fuel
    simp only [ackedBy, hchain, List.getLast?_singleton] at h
    split at h
    · rename_i y resp sends hy
      rw [← Option.some.inj h, ← (Prod.mk.inj (Option.some.inj hy)).1]
      rfl
    · cases h

/-- The entry node passes on the answer of the primary. -/
theorem ackedBy_forward (hx : (c x).forwardTarget req.serves req.key = some p)
    (hp : (c p).forwardTarget req.serves req.key = none)
    (h : c.ackedBy now delivers req fuel x = some r) : r = (1, p) := by
  cases fuel with
  | zero => cases h
  | succ fuel =>
    have hchain : hops (fun _ => c) now delivers req (fuel + 1) 0 x = (x, .proxy p) ::
        if delivers 0 then hops (fun _ => c) now delivers req fuel 1 p else [] :=
      hops_forward hx now delivers fuel
    simp only [ackedBy, hchain] at h
    by_cases hd : delivers 0 = true
    · cases fuel with
      | zero =>
        rw [if_pos hd] at h
        cases h
      | succ fuel =>
        have hrest : hops (fun _ => c) now delivers req (fuel + 1) 1 p =
            [(p, ((c p).serve (now 1) req).1)] := hops_serve hp now delivers fuel
        rw [if_pos hd, hrest] at h
        split at h
        · rename_i y resp sends hy
          rw [← Option.some.inj h, ← (Prod.mk.inj (Option.some.inj hy)).1]
          rfl
        · cases h
    · rw [if_neg hd] at h
      cases h

end Cluster

open CacheServer

/-- **When an acknowledged write has reached the primary.**  The node that answers has applied
    the write to its store.  If the node a write is forwarded to has the same view of the
    ring, that node is the primary of the key if and only if the entry node is the primary,
    or has a connection to it. -/
theorem write_acked_iff (c : Cluster) (x : NodeID) (rm : ReplicationManager)
    (hx : (c x).Serves x rm) (req : Request) (hreq : req.IsWrite)
    (htarget : ∀ p, (c x).forwardTarget req.serves req.key = some p →
      (∃ rm', (c p).Serves p rm') ∧
        (c p).ring.getNodes req.key 1 = (c x).ring.getNodes req.key 1)
    (now : ℕ → Time) (delivers : ℕ → Bool) (fuel i : ℕ) (y : NodeID)
    (hack : c.ackedBy now delivers req fuel x = some (i, y)) :
    ((c y).step (now i, req)).store.entry req.key = req.written (now i) ∧
    (rm.getPrimary (c x).ring req.key = some y ↔
      ∃ p, rm.getPrimary (c x).ring req.key = some p ∧ (p = x ∨ p ∈ rm.peerConns)) := by
  rcases hf : (c x).forwardTarget req.serves req.key with _ | p
  · -- the entry node serves the write
    obtain ⟨rfl, rfl⟩ := Prod.mk.inj (Cluster.ackedBy_serve hf hack)
    refine ⟨?_, ?_⟩
    · rw [CacheServer.step, (c y).handle_serve _ _ hf]
      exact entry_serve_write hreq _
    · have hnone := (hx.forwardTarget_eq_none_iff hreq).1 hf
      constructor
      · intro hprim
        exact ⟨y, hprim, Or.inl rfl⟩
      · rintro ⟨p, hprim, rfl | hconn⟩
        · exact hprim
        · by_cases hp : p = y
          · exact hp ▸ hprim
          · exact absurd hconn (hnone p hprim hp)
  · -- it forwards the write to the primary, which knows that it is
    obtain ⟨⟨rm', hp⟩, hring⟩ := htarget p hf
    obtain ⟨rm₁, hrm, -, hprim, -, hconn⟩ := (c x).forwardTarget_eq_some hf
    obtain rfl : rm₁ = rm := Option.some.inj (hrm.symm.trans hx.manager)
    have hprim' : rm'.getPrimary (c p).ring req.key = some p := by
      rw [ReplicationManager.getPrimary, hring]
      exact hprim
    have hf' : (c p).forwardTarget req.serves req.key = none := by
      refine (hp.forwardTarget_eq_none_iff hreq).2 fun q hq hne => ?_
      rw [hprim'] at hq
      exact absurd (Option.some.inj hq).symm hne
    obtain ⟨rfl, rfl⟩ := Prod.mk.inj (Cluster.ackedBy_forward hf hf' hack)
    refine ⟨?_, iff_of_true hprim ⟨y, hprim, Or.inr hconn⟩⟩
    rw [CacheServer.step, (c y).handle_serve _ _ hf']
    exact entry_serve_write hreq _

/-- Two nodes with a common ring, of which `b` has no connection to `a`. -/
def unconnected (x : NodeID) : CacheServer :=
  let cs := nodeWith .insertion 1 1 x [ascii ['a'], ascii ['b']]
  if x = ascii ['b'] then { cs with replicationMgr := some (.new x 1) } else cs

/-- Node `b` is connected, and forwards the write to `a`. -/
theorem write_acked_forwarded :
    let c : Cluster := fun x => nodeWith .insertion 1 1 x [ascii ['a'], ascii ['b']]
    ((c (ascii ['a'])).step (0, .set ⟨[], [1], 0⟩)).store.entry [] = some ⟨[1], none⟩ ∧
      ((c (ascii ['b'])).ring.getNodes [] 1).head? = some (ascii ['a']) := by
  have h := write_acked_iff (fun x => nodeWith .insertion 1 1 x [ascii ['a'], ascii ['b']])
    (ascii ['b']) { ReplicationManager.new (ascii ['b']) 1 with
      peerConns := (∅ : GoMap NodeID GoString).insert (ascii ['a']) (ascii ['a']) }
    ⟨rfl, rfl, rfl⟩ (.set ⟨[], [1], 0⟩) trivial (fun p _ => ⟨⟨_, rfl, rfl, rfl⟩, rfl⟩)
    (fun _ => 0) (fun _ => true) 2 1 (ascii ['a']) (by decide +kernel)
  exact ⟨h.1, h.2.2 ⟨ascii ['a'], by decide +kernel, Or.inr (Finmap.mem_insert.2 (Or.inl rfl))⟩⟩

/-- Node `b` acknowledges a write that it has not sent to the primary `a`. -/
theorem write_acked_by_secondary :
    let c : Cluster := unconnected
    ((c (ascii ['b'])).ring.getNodes [] 1).head? = some (ascii ['a']) ∧
      ((c (ascii ['b'])).handle 0 (.set ⟨[], [1], 0⟩)).1 = .reply (.set ⟨true⟩) [] ∧
      c.ackedBy (fun _ => 0) (fun _ => true) (.set ⟨[], [1], 0⟩) 2 (ascii ['b']) =
        some (0, ascii ['b']) := by
  decide +kernel

end DistCache
