/-
  The hot keys that a server finds.

  A `Get` that is served here and finds its key is an access; together with the ticks of the decay
  loop, the accesses are operations on the sketch of the detector (`observed`).  The mitigator of a
  server follows them (`observe`), whatever else happens to the server.

  An estimate lies between the count of its key and the count of all keys, both halved at every
  tick.  So a key is split when its own count reaches the threshold, and it is split only if the
  count of all keys has reached it.
-/
import DistCache.Upkeep
import DistCache.Proof.Server
import DistCache.Proof.Sketch
import DistCache.Proof.Split

namespace DistCache

open Lib Lib.CountMin

deriving instance DecidableEq for Op

/-! ## The detector -/

/-- The sketch of a detector after operations from the empty one. -/
def Detector.after (hotThreshold : UInt64) (ops : List (Op Key)) : Detector :=
  ⟨run CountMinSketch.exec (.new 4096 4) ops, hotThreshold⟩

namespace Detector

variable (hotThreshold : UInt64) (ops : List (Op Key)) (key : Key)

/-- An estimate is at least the count of the key, and at most the count of all keys. -/
theorem getFrequency_after (hops : ops.countP Op.isIncrement < 2 ^ 64 - 1) :
    run (tally key) 0 ops ≤ ((after hotThreshold ops).getFrequency key).toNat ∧
      ((after hotThreshold ops).getFrequency key).toNat ≤ run volume 0 ops := by
  obtain ⟨hshaped, hdims, hrep⟩ := CountMinSketch.represents_run
    (CountMinSketch.new_shaped 4096 4) (CountMinSketch.new_represents 4096 4) ops (by omega)
  have hhashes := CountMinSketch.hashes_congr hdims
  have htotal := (total_le (CountMinSketch.new 4096 4).hashes ops).trans_lt hops
  have hlt : ∀ i < (after hotThreshold ops).sketch.depth.toNat,
      ((after hotThreshold ops).sketch.cell key i).toNat < 2 ^ 64 - 1 := by
    intro i hi
    rw [after, hrep.cell hshaped key hi]
    exact (table_le _ i _ ops).trans_lt htotal
  -- the estimate is the counter of one of the rows
  obtain ⟨i, hi, hest⟩ := (hshaped.estimate_isLeast hlt).1
  rw [getFrequency, after, hest, hrep.cell hshaped key hi, hhashes]
  refine ⟨tally_le _ key i ops, ?_⟩
  rw [← total_eq (CountMinSketch.new 4096 4).hashes]
  exact table_le _ i _ ops

theorem after_append (op : Op Key) : after hotThreshold (ops ++ [op]) =
    ⟨(after hotThreshold ops).sketch.exec op, hotThreshold⟩ := by
  rw [after, run_append]
  rfl

theorem recordAccess_after : (after hotThreshold ops).recordAccess key =
    ((after hotThreshold (ops ++ [.increment key])).isHot key,
      after hotThreshold (ops ++ [.increment key])) := by
  rw [after_append]
  rfl

/-- A key is hot if its own count reaches the threshold, and only if the count of all keys does. -/
theorem isHot_after (hops : ops.countP Op.isIncrement < 2 ^ 64 - 1) :
    (hotThreshold.toNat ≤ run (tally key) 0 ops → (after hotThreshold ops).isHot key = true) ∧
      ((after hotThreshold ops).isHot key = true → hotThreshold.toNat ≤ run volume 0 ops) := by
  obtain ⟨hlow, hhigh⟩ := getFrequency_after hotThreshold ops key hops
  have hiff : (after hotThreshold ops).isHot key = true ↔
      hotThreshold.toNat ≤ ((after hotThreshold ops).getFrequency key).toNat := by
    rw [isHot, decide_eq_true_iff, UInt64.le_iff_toNat_le]
    rfl
  exact ⟨fun h => hiff.2 (h.trans hlow), fun h => (hiff.1 h).trans hhigh⟩

end Detector

/-! ## The mitigator -/

namespace Mitigator

/-- What an operation on the sketch does to the mitigator; the server resets no sketch. -/
def observe (mt : Mitigator) : Op Key → Mitigator
  | .increment key =>
    let (isHot, detector) := mt.detector.recordAccess key
    if isHot = true ∧ key ∉ mt.mitigatedKeys then
      { mt with
        detector
        mitigatedKeys := mt.mitigatedKeys.insert key .keySplit
        mitigationCount := mt.mitigationCount + 1 }
    else { mt with detector }
  | .decay => { mt with detector := mt.detector.decay }
  | .reset => { mt with detector := { mt.detector with sketch := mt.detector.sketch.reset } }

theorem checkAndMitigate_observe (mt : Mitigator) (s : Store) (now : Time) (key : Key) :
    (mt.checkAndMitigate s now key).1 = (mt.detector.recordAccess key).1 ∧
      (mt.checkAndMitigate s now key).2.1 = mt.observe (.increment key) := by
  simp only [checkAndMitigate, observe]
  rcases mt.detector.recordAccess key with ⟨_ | _, detector⟩
  · exact ⟨rfl, rfl⟩
  · by_cases hk : key ∈ mt.mitigatedKeys <;> simp [hk]

/-- The count was at least the threshold at some access to the key. -/
def Peaked (count : ℕ → Op Key → ℕ) (hotThreshold : UInt64) (key : Key) (ops : List (Op Key)) :
    Prop :=
  ∃ pre, pre ++ [.increment key] <+: ops ∧
    hotThreshold.toNat ≤ run count 0 (pre ++ [.increment key])

theorem Peaked.mono {count : ℕ → Op Key → ℕ} {hotThreshold : UInt64} {key : Key}
    {ops : List (Op Key)} (h : Peaked count hotThreshold key ops) (op : Op Key) :
    Peaked count hotThreshold key (ops ++ [op]) := by
  obtain ⟨pre, hpre, hcount⟩ := h
  exact ⟨pre, hpre.trans (List.prefix_append ops [op]), hcount⟩

/-- A peak is an old one, or the last access. -/
theorem Peaked.cases {count : ℕ → Op Key → ℕ} {hotThreshold : UInt64} {key : Key}
    {ops : List (Op Key)} {op : Op Key} (h : Peaked count hotThreshold key (ops ++ [op])) :
    Peaked count hotThreshold key ops ∨
      op = .increment key ∧ hotThreshold.toNat ≤ run count 0 (ops ++ [.increment key]) := by
  obtain ⟨pre, hpre, hcount⟩ := h
  rcases List.prefix_concat_iff.1 hpre with heq | hpre
  · obtain ⟨rfl, hop⟩ := List.append_inj' heq rfl
    exact .inr ⟨(List.singleton_inj.1 hop).symm, hcount⟩
  · exact .inl ⟨pre, hpre, hcount⟩

/-- What the mitigator knows after operations on its sketch. -/
structure Knows (mt : Mitigator) (hotThreshold : UInt64) (ops : List (Op Key)) : Prop where
  detector : mt.detector = .after hotThreshold ops
  complete : ∀ key, Peaked (tally key) hotThreshold key ops → key ∈ mt.mitigatedKeys
  sound : ∀ key ∈ mt.mitigatedKeys, Peaked volume hotThreshold key ops
  few : mt.mitigatedKeys.keys.card ≤ ops.countP Op.isIncrement
  count : mt.mitigationCount.toNat = mt.mitigatedKeys.keys.card

variable {mt : Mitigator} {hotThreshold : UInt64} {ops : List (Op Key)}

theorem Knows.new (hotThreshold : UInt64) (shardCount : ℤ) :
    Knows (.new (.new hotThreshold) shardCount) hotThreshold [] where
  detector := rfl
  complete := by
    rintro key ⟨pre, hpre, -⟩
    simp at hpre
  sound key hkey := absurd hkey (Finmap.notMem_empty)
  few := by simp [Mitigator.new]
  count := by simp [Mitigator.new]

/-- An operation that is no access. -/
theorem Knows.quiet (h : Knows mt hotThreshold ops) {op : Op Key} (hop : op.isIncrement = false)
    {detector : Detector} (hd : detector = .after hotThreshold (ops ++ [op])) :
    Knows { mt with detector } hotThreshold (ops ++ [op]) where
  detector := hd
  complete key hpeak := by
    rcases hpeak.cases with hpeak | ⟨rfl, -⟩
    · exact h.complete key hpeak
    · cases hop
  sound key hkey := (h.sound key hkey).mono op
  few := by
    rw [List.countP_append]
    exact h.few.trans (Nat.le_add_right _ _)
  count := h.count

theorem Knows.access (h : Knows mt hotThreshold ops) (key : Key)
    (hops : (ops ++ [Op.increment key]).countP Op.isIncrement < 2 ^ 64 - 1) :
    Knows (mt.observe (.increment key)) hotThreshold (ops ++ [.increment key]) := by
  obtain ⟨hlow, hhigh⟩ := Detector.isHot_after hotThreshold _ key hops
  have hincr : (ops ++ [Op.increment key]).countP Op.isIncrement = ops.countP Op.isIncrement + 1 := by
    simp [Op.isIncrement]
  have hfew := h.few
  simp only [observe, h.detector, Detector.recordAccess_after]
  by_cases hhot : (Detector.after hotThreshold (ops ++ [.increment key])).isHot key = true
  · by_cases hk : key ∈ mt.mitigatedKeys
    · rw [if_neg fun hc => hc.2 hk]
      refine ⟨rfl, fun k hpeak => ?_, fun k hmem => (h.sound k hmem).mono _, ?_, h.count⟩
      · rcases hpeak.cases with hpeak | ⟨hop, -⟩
        · exact h.complete k hpeak
        · rw [← Op.increment.inj hop]
          exact hk
      · rw [hincr]
        exact hfew.trans (Nat.le_succ _)
    · have hcard : (mt.mitigatedKeys.insert key .keySplit).keys.card =
          mt.mitigatedKeys.keys.card + 1 := by
        have hkeys : (mt.mitigatedKeys.insert key .keySplit).keys =
            insert key mt.mitigatedKeys.keys := by
          ext k
          simp [Finmap.mem_keys, Finmap.mem_insert]
        rw [hkeys, Finset.card_insert_of_notMem fun hc => hk (Finmap.mem_keys.1 hc)]
      rw [if_pos ⟨hhot, hk⟩]
      refine ⟨rfl, fun k hpeak => ?_, fun k hmem => ?_, ?_, ?_⟩
      · rcases hpeak.cases with hpeak | ⟨hop, -⟩
        · exact Finmap.mem_insert.2 (.inr (h.complete k hpeak))
        · exact Finmap.mem_insert.2 (.inl (Op.increment.inj hop).symm)
      · rcases Finmap.mem_insert.1 hmem with rfl | hmem
        · exact ⟨ops, List.prefix_rfl, hhigh hhot⟩
        · exact (h.sound k hmem).mono _
      · rw [hcard, hincr]
        exact Nat.succ_le_succ hfew
      · rw [hcard, UInt64.toNat_add, h.count, UInt64.toNat_one]
        exact Nat.mod_eq_of_lt (by omega)
  · rw [if_neg fun hc => hhot hc.1]
    refine ⟨rfl, fun k hpeak => ?_, fun k hmem => (h.sound k hmem).mono _, ?_, h.count⟩
    · rcases hpeak.cases with hpeak | ⟨hop, hcount⟩
      · exact h.complete k hpeak
      · obtain rfl := Op.increment.inj hop
        exact absurd (hlow hcount) hhot
    · rw [hincr]
      exact hfew.trans (Nat.le_succ _)

theorem Knows.observe (h : Knows mt hotThreshold ops) (op : Op Key)
    (hops : (ops ++ [op]).countP Op.isIncrement < 2 ^ 64 - 1) :
    Knows (mt.observe op) hotThreshold (ops ++ [op]) := by
  cases op with
  | increment key => exact h.access key hops
  | decay =>
    refine h.quiet rfl ?_
    rw [h.detector, Detector.after_append]
    rfl
  | reset =>
    refine h.quiet rfl ?_
    rw [h.detector, Detector.after_append]
    rfl

/-- What the mitigator knows after a run. -/
theorem knows_run (hotThreshold : UInt64) (shardCount : ℤ) (ops : List (Op Key))
    (hops : ops.countP Op.isIncrement < 2 ^ 64 - 1) :
    Knows (run Mitigator.observe (.new (.new hotThreshold) shardCount) ops) hotThreshold ops := by
  induction ops using List.reverseRecOn with
  | nil => exact .new hotThreshold shardCount
  | append_singleton ops op ih =>
    have hcount : ops.countP Op.isIncrement < 2 ^ 64 - 1 := by
      rw [List.countP_append] at hops
      omega
    rw [run_append, run_cons, run_nil]
    exact (ih hcount).observe op hops

end Mitigator

/-! ## The server -/

namespace CacheServer

/-- A `Get` that is served here and finds its key. -/
def Hits (cs : CacheServer) (now : Time) (req : GetRequest) : Prop :=
  cs.forwardTarget (Request.get req).serves req.key = none ∧
    (cs.store.get now req.key).1.isSome

instance (cs : CacheServer) (now : Time) (req : GetRequest) : Decidable (cs.Hits now req) :=
  inferInstanceAs (Decidable (_ ∧ _))

/-- What an event does to the sketch of the detector. -/
def observed (cs : CacheServer) : Event → Option (Op Key)
  | .call now (.request (.get req)) =>
    if cs.Hits now req then some (.increment req.key) else none
  | .decay => some .decay
  | _ => none

/-- The operations on the sketch in a run. -/
def accesses (cs : CacheServer) (evs : List Event) : List (Op Key) :=
  (outputs event observed cs evs).reduceOption

section
variable {cs : CacheServer} {mt : Mitigator}

/-- What a `Get` that finds its key answers, and what it does to the mitigator. -/
theorem get_hit (hmt : cs.hotKeyMitigator = some mt) {now : Time} {req : GetRequest}
    (h : cs.Hits now req) :
    ∃ value, (cs.handle now (.get req)).1 =
        .reply (.get ⟨req.key, value, true, 0, (mt.detector.recordAccess req.key).1⟩) [] ∧
      (cs.handle now (.get req)).2.hotKeyMitigator = some (mt.observe (.increment req.key)) := by
  obtain ⟨hf, hfound⟩ := h
  rw [cs.handle_serve now (.get req) hf]
  simp only [serve, serveGet]
  rcases hg : cs.store.get now req.key with ⟨_ | value, store⟩
  · rw [hg] at hfound
    cases hfound
  · obtain ⟨hhot, hmt'⟩ := mt.checkAndMitigate_observe store now req.key
    refine ⟨value, ?_, ?_⟩
    · simp only [checkHot, hmt, hhot]
    · simp only [checkHot, hmt, hmt']

theorem get_miss (hmt : cs.hotKeyMitigator = some mt) {now : Time} {req : GetRequest}
    (h : ¬ cs.Hits now req) : (cs.handle now (.get req)).2.hotKeyMitigator = some mt := by
  rcases hf : cs.forwardTarget (Request.get req).serves req.key with _ | primary
  · rw [cs.handle_serve now (.get req) hf]
    simp only [serve, serveGet]
    rcases hg : cs.store.get now req.key with ⟨_ | value, store⟩
    · exact hmt
    · exact absurd ⟨hf, by rw [hg]; rfl⟩ h
  · rw [cs.handle_proxy now (.get req) hf]
    exact hmt

/-- A request that is no `Get` leaves the mitigator alone. -/
theorem handle_mitigator (cs : CacheServer) (now : Time) {req : Request}
    (hreq : ∀ get, req ≠ .get get) : (cs.handle now req).2.hotKeyMitigator = cs.hotKeyMitigator := by
  rcases hf : cs.forwardTarget req.serves req.key with _ | primary
  · rw [cs.handle_serve now req hf]
    cases req with
    | get req => exact absurd rfl (hreq req)
    | set req => exact ifPrimary_mitigator _ _ _
    | delete req => exact ifPrimary_mitigator _ _ _
    | expire req =>
      simp only [serve, serveExpire]
      rcases cs.store.expire now req.key (ttlOfMs req.ttlMs) with ⟨_ | _, store⟩
      · rfl
      · exact replicateExpire_mitigator _ _ _
  · rw [cs.handle_proxy now req hf]

/-- **The mitigator follows the accesses**: an event does to it what it does to the sketch. -/
theorem event_mitigator (hmt : cs.hotKeyMitigator = some mt) (e : Event) :
    (cs.event e).hotKeyMitigator = some (run Mitigator.observe mt (cs.observed e).toList) := by
  cases e with
  | call now call =>
    cases call with
    | request req =>
      cases req with
      | get req =>
        simp only [observed]
        by_cases h : cs.Hits now req
        · obtain ⟨-, -, hmt'⟩ := get_hit hmt h
          rw [if_pos h]
          exact hmt'
        · rw [if_neg h]
          exact get_miss hmt h
      | set req => exact (cs.handle_mitigator now (fun _ => by simp)).trans hmt
      | delete req => exact (cs.handle_mitigator now (fun _ => by simp)).trans hmt
      | expire req => exact (cs.handle_mitigator now (fun _ => by simp)).trans hmt
    | replicate req =>
      refine Eq.trans ?_ hmt
      simp only [event, call, replicate]
      split <;> rfl
  | decay =>
    simp only [event, decay, hmt]
    rfl
  | sweep index passes =>
    refine Eq.trans ?_ hmt
    simp only [event, sweep]
    split <;> rfl

theorem run_mitigator (hmt : cs.hotKeyMitigator = some mt) (evs : List Event) :
    (run event cs evs).hotKeyMitigator = some (run Mitigator.observe mt (cs.accesses evs)) := by
  induction evs generalizing cs mt with
  | nil => exact hmt
  | cons e evs ih =>
    rw [run_cons, ih (event_mitigator hmt e), accesses, accesses, reduceOption_outputs_cons,
      run_append]

end

/-- **Hot keys are found.**  Take a server with a new mitigator through any calls, ticks of the
    decay loop and sweeps, with fewer than `2^64 - 2` reads served here.  A key is split once its
    own count, halved at every tick, reaches the threshold at a read, and stays so; a key is split
    only if at a read of it the count of all keys has reached the threshold.  The next read of
    a key is answered as hot under the same conditions, and the mitigations are counted. -/
theorem hot_keys_found (cs : CacheServer) (hotThreshold : UInt64) (shardCount : ℤ)
    (hmt : cs.hotKeyMitigator = some (.new (.new hotThreshold) shardCount)) (evs : List Event)
    (hevs : (cs.accesses evs).countP Op.isIncrement < 2 ^ 64 - 2) :
    ∃ mt, (run event cs evs).hotKeyMitigator = some mt ∧
      (∀ key, Mitigator.Peaked (tally key) hotThreshold key (cs.accesses evs) →
        mt.isMitigated key = true) ∧
      (∀ key, mt.isMitigated key = true →
        Mitigator.Peaked volume hotThreshold key (cs.accesses evs)) ∧
      mt.mitigationCount.toNat = mt.mitigatedKeys.keys.card ∧
      ∀ now req, (run event cs evs).Hits now req →
        ∃ value isHot, ((run event cs evs).handle now (.get req)).1 =
            .reply (.get ⟨req.key, value, true, 0, isHot⟩) [] ∧
          (hotThreshold.toNat ≤ run (tally req.key) 0 (cs.accesses evs ++ [.increment req.key]) →
            isHot = true) ∧
          (isHot = true →
            hotThreshold.toNat ≤ run volume 0 (cs.accesses evs ++ [.increment req.key])) := by
  have hrun := run_mitigator hmt evs
  have hknows := Mitigator.knows_run hotThreshold shardCount (cs.accesses evs) (by omega)
  generalize run Mitigator.observe _ (cs.accesses evs) = mt at hrun hknows
  refine ⟨mt, hrun, fun key hpeak => decide_eq_true (hknows.complete key hpeak),
    fun key hkey => hknows.sound key (of_decide_eq_true hkey), hknows.count, fun now req hhit => ?_⟩
  obtain ⟨value, hanswer, -⟩ := get_hit hrun hhit
  rw [hknows.detector, Detector.recordAccess_after] at hanswer
  refine ⟨value, _, hanswer, Detector.isHot_after hotThreshold _ req.key ?_⟩
  rw [List.countP_append]
  simp only [List.countP_singleton, Op.isIncrement, if_true]
  omega

/-- A server alone, whose mitigator splits a key at the second read. -/
def watchful : CacheServer where
  nodeID := [110]
  store := .newWithShards 1
  ring := .new 1 0
  replicationMgr := none
  hotKeyMitigator := some (.new (.new 2) 2)

/-- The key is read, and read again after the reading of another key. -/
def readTwice : List Event :=
  [.call 0 (.request (.set ⟨[107], [1], 0⟩)), .call 1 (.request (.get ⟨[107]⟩)),
    .call 2 (.request (.get ⟨[108]⟩)), .call 3 (.request (.get ⟨[107]⟩))]

theorem hot_keys_found_twice :
    watchful.accesses readTwice = [.increment [107], .increment [107]] ∧
      ∃ mt, (run event watchful readTwice).hotKeyMitigator = some mt ∧
        mt.isMitigated [107] = true := by
  have hops : watchful.accesses readTwice = [.increment [107], .increment [107]] := by
    decide +kernel
  obtain ⟨mt, hmt, hfound, -⟩ := hot_keys_found watchful 2 2 rfl readTwice (by
    rw [hops]
    decide)
  refine ⟨hops, mt, hmt, hfound [107] ?_⟩
  rw [hops]
  exact ⟨[.increment [107]], List.prefix_rfl, by decide⟩

end CacheServer

end DistCache
