/-
  The scan of `reReplicateForDeadNode`.

  A scan visits the live entries of the store and replicates those whose primary is this
  node (`reReplicate_spec`).  It keeps everything of the manager but the sequence number.
-/
import DistCache.Proof.Server

namespace DistCache

open CacheServer

section
variable {rm : ReplicationManager} {ring : Ring}

/-- `send` replicates the entry `v` visited by a scan. -/
def Carries (rm : ReplicationManager) (ring : Ring) (v : Key × Value × Duration) (send : Send) :
    Prop :=
  rm.isPrimary ring v.1 = true ∧ send.nodeID ∈ rm.getSecondaries ring v.1 ∧
    ∃ seq, send.req = ⟨v.1, v.2.1, v.2.2.milliseconds, seq, rm.selfID, .set⟩

theorem mem_replicate {key : Key} {f : UInt64 → ReplicateRequest} {send : Send} :
    send ∈ (rm.replicate ring key f).2 ↔
      send.nodeID ∈ rm.getSecondaries ring key ∧ send.req = f (rm.sequence + 1) := by
  rw [replicate_snd, List.mem_map]
  constructor
  · rintro ⟨id, hid, rfl⟩; exact ⟨hid, rfl⟩
  · rintro ⟨hid, hreq⟩; exact ⟨send.nodeID, hid, by rw [← hreq]⟩

/-- The callback of the scan. -/
def rescan (ring : Ring) (acc : ReplicationManager × List Send) (key : Key) (value : Value)
    (ttl : Duration) : (ReplicationManager × List Send) × Bool :=
  if acc.1.isPrimary ring key then
    let (rm, sends) := acc.1.replicateWrite ring key value ttl.milliseconds
    ((rm, acc.2 ++ sends), true)
  else (acc, true)

theorem rescan_spec (ring : Ring) {acc : ReplicationManager × List Send}
    (h : wiring acc.1 = wiring rm) (key : Key) (value : Value) (ttl : Duration) :
    wiring (rescan ring acc key value ttl).1.1 = wiring rm ∧
      (rescan ring acc key value ttl).2 = true ∧
      (∀ send ∈ (rescan ring acc key value ttl).1.2,
        send ∈ acc.2 ∨ Carries rm ring (key, value, ttl) send) ∧
      (∀ send ∈ acc.2, send ∈ (rescan ring acc key value ttl).1.2) ∧
      (rm.isPrimary ring key = true → ∀ z ∈ rm.getSecondaries ring key,
        ∃ send ∈ (rescan ring acc key value ttl).1.2,
          send.nodeID = z ∧ Carries rm ring (key, value, ttl) send) := by
  have hself : acc.1.selfID = rm.selfID := congrArg Prod.fst h
  unfold rescan
  rw [isPrimary_congr h]
  split_ifs with hp
  · have hmem : ∀ send, send ∈ (acc.1.replicateWrite ring key value ttl.milliseconds).2 →
        Carries rm ring (key, value, ttl) send := by
      intro send hs
      obtain ⟨h1, h2⟩ := mem_replicate.1 hs
      exact ⟨hp, getSecondaries_congr h key ▸ h1, _, by rw [h2, hself]⟩
    refine ⟨(wiring_replicate ..).trans h, rfl, ?_, ?_, ?_⟩
    · intro send hs
      rcases List.mem_append.1 hs with hs | hs
      · exact Or.inl hs
      · exact Or.inr (hmem send hs)
    · intro send hs; exact List.mem_append_left _ hs
    · intro _ z hz
      have hs : ⟨z, ⟨key, value, ttl.milliseconds, acc.1.sequence + 1, acc.1.selfID, .set⟩⟩ ∈
          (acc.1.replicateWrite ring key value ttl.milliseconds).2 :=
        mem_replicate.2 ⟨(getSecondaries_congr h key).symm ▸ hz, rfl⟩
      exact ⟨_, List.mem_append_right _ hs, rfl, hmem _ hs⟩
  · exact ⟨h, rfl, fun send hs => Or.inl hs, fun send hs => hs, fun hp' => absurd hp' hp⟩

theorem rescan_loop (ring : Ring) : ∀ (vs : List (Key × Value × Duration))
    {acc : ReplicationManager × List Send}, wiring acc.1 = wiring rm →
    wiring (Store.forEachLoop (rescan ring) vs acc).1 = wiring rm ∧
      (∀ send ∈ (Store.forEachLoop (rescan ring) vs acc).2,
        send ∈ acc.2 ∨ ∃ v ∈ vs, Carries rm ring v send) ∧
      (∀ send ∈ acc.2, send ∈ (Store.forEachLoop (rescan ring) vs acc).2) ∧
      ∀ v ∈ vs, rm.isPrimary ring v.1 = true → ∀ z ∈ rm.getSecondaries ring v.1,
        ∃ send ∈ (Store.forEachLoop (rescan ring) vs acc).2,
          send.nodeID = z ∧ Carries rm ring v send
  | [], acc, h => ⟨h, fun send hs => Or.inl hs, fun send hs => hs, by simp⟩
  | (key, value, ttl) :: vs, acc, h => by
    obtain ⟨h1, h2, h3, h4, h5⟩ := rescan_spec ring h key value ttl
    obtain ⟨i1, i2, i3, i4⟩ := rescan_loop ring vs h1
    have hloop : Store.forEachLoop (rescan ring) ((key, value, ttl) :: vs) acc =
        Store.forEachLoop (rescan ring) vs (rescan ring acc key value ttl).1 := by
      simp only [Store.forEachLoop, h2, if_true]
    rw [hloop]
    refine ⟨i1, fun send hs => ?_, fun send hs => i3 send (h4 send hs), fun v hv hp z hz => ?_⟩
    · rcases i2 send hs with hs | ⟨v, hv, hc⟩
      · rcases h3 send hs with hs | hc
        · exact Or.inl hs
        · exact Or.inr ⟨_, List.mem_cons_self, hc⟩
      · exact Or.inr ⟨v, List.mem_cons_of_mem _ hv, hc⟩
    · rcases List.mem_cons.1 hv with rfl | hv
      · obtain ⟨send, hs, hc⟩ := h5 hp z hz
        exact ⟨send, i3 send hs, hc⟩
      · exact i4 v hv hp z hz

/-- **What a scan sends**: every live entry whose primary is this node, to every
    secondary, and nothing else. -/
theorem reReplicate_spec (rm : ReplicationManager) (ring : Ring) (ord : RangeOrder Key Entry)
    (store : Store) (now : Time) :
    wiring (rm.reReplicateForDeadNode ring ord store now).1 = wiring rm ∧
      (∀ send ∈ (rm.reReplicateForDeadNode ring ord store now).2,
        ∃ v ∈ store.visits ord now, Carries rm ring v send) ∧
      ∀ v ∈ store.visits ord now, rm.isPrimary ring v.1 = true →
        ∀ z ∈ rm.getSecondaries ring v.1,
          ∃ send ∈ (rm.reReplicateForDeadNode ring ord store now).2,
            send.nodeID = z ∧ Carries rm ring v send := by
  have hstart : wiring ((rm, []) : ReplicationManager × List Send).1 = wiring rm := rfl
  obtain ⟨h1, h2, -, h4⟩ := rescan_loop ring (store.visits ord now) hstart
  refine ⟨h1, fun send hs => ?_, h4⟩
  rcases h2 send hs with hs | hc
  · exact absurd hs List.not_mem_nil
  · exact hc

end

end DistCache
