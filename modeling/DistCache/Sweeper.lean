/-
  The TTL sweeper of the store (`internal/store/ttl.go`), and runs of a store with
  its sweeper.

  A pass samples keys of one shard under its lock and deletes the expired ones;
  `sweepShard` repeats passes while many of the sampled keys are expired.  The
  order in which the keys are collected, the random choices and the clock of a
  pass are data of the pass.  Where the source would panic (an index out of
  range, `rand.Intn` of zero, a nil entry), the result is `none`.
-/
import DistCache.Store

namespace DistCache

/-- `samplesPerSweep`. -/
def samplesPerSweep : ℕ := 20

/-- `expiredThreshold`. -/
def expiredThreshold : ℚ := 1 / 4

/-- What a pass takes from its environment: the order of the `range` loop, the random
    source and the clock. -/
structure Pass where
  ord : RangeOrder Key Entry
  rand : ℕ → ℕ
  now : Time

/-- `rand.Intn(n)`, from a number of the random source. -/
def intn (random n : ℕ) : Option ℕ := if n = 0 then none else some (random % n)

/-- `keys[i], keys[j] = keys[j], keys[i]`. -/
def swap (keys : List Key) (i j : ℕ) : Option (List Key) := do
  let a ← keys[i]?
  let b ← keys[j]?
  return (keys.set i b).set j a

namespace Store

/-- The sampling loop of `sampleAndExpire`, from index `i` on with `n` samples to go: the
    items left, and the number of entries deleted. -/
def sampleLoop (rand : ℕ → ℕ) (now : Time) :
    (n i : ℕ) → List Key → Items → ℕ → Option (Items × ℕ)
  | 0, _, _, items, expiredCount => some (items, expiredCount)
  | n + 1, i, keys, items, expiredCount => do
    let idx ← intn (rand i) (keys.length - i)
    let keys ← swap keys i (idx + i)
    let key ← keys[i]?
    let entry ← items.lookup key
    if entry.isExpired now then sampleLoop rand now n (i + 1) keys (items.erase key) (expiredCount + 1)
    else sampleLoop rand now n (i + 1) keys items expiredCount

/-- Replace the items of the shard at an index. -/
def putIndex (s : Store) (index : ℕ) (items : Items) : Store :=
  { s with
    shards := s.shards.set index items
    mask_lt := by rw [List.length_set]; exact s.mask_lt }

/-- `sampleAndExpire` on the shard at an index: the fraction of the samples that were
    expired, and the store after it. -/
def sampleAndExpire (s : Store) (index : ℕ) (pass : Pass) : Option (ℚ × Store) := do
  let items ← s.shards[index]?
  let n := items.keys.card
  if n = 0 then return (0, s)
  let keys := (pass.ord.list items).map Sigma.fst
  let samples := if n < samplesPerSweep then n else samplesPerSweep
  let (items, expiredCount) ← sampleLoop pass.rand pass.now samples 0 keys items 0
  return (expiredCount / samples, (s.putIndex index items).count fun st =>
    { st with expirations := st.expirations + expiredCount.toUInt64 })

/-- `sweepShard`: repeat passes until the fraction expired is below the threshold; the
    stop signal arrives when no pass is left. -/
def sweepShard (index : ℕ) : List Pass → Store → Option Store
  | [], s => some s
  | pass :: passes, s => do
    let (expired, s) ← s.sampleAndExpire index pass
    if expired < expiredThreshold then return s
    sweepShard index passes s

/-! ## Runs -/

/-- A call of the store, or of the sweeper on one of its shards. -/
inductive Act where
  | get (now : Time) (key : Key)
  | set (now : Time) (key : Key) (value : Value) (ttl : Duration)
  | delete (now : Time) (key : Key)
  | expire (now : Time) (key : Key) (ttl : Duration)
  | sweep (index : ℕ) (passes : List Pass)

/-- The clock readings of a call. -/
def Act.times : Act → List Time
  | .get now _ => [now]
  | .set now _ _ _ => [now]
  | .delete now _ => [now]
  | .expire now _ _ => [now]
  | .sweep _ passes => passes.map Pass.now

/-- The result of a call. -/
inductive Reply where
  | get (value : Option Value)
  | delete (existed : Bool)
  | expire (found : Bool)
  | done
  deriving DecidableEq

/-- Execute a call. -/
def exec (s : Store) : Act → Option (Reply × Store)
  | .get now key => some (.get (s.get now key).1, (s.get now key).2)
  | .set now key value ttl => some (.done, s.set now key value ttl)
  | .delete _ key => some (.delete (s.delete key).1, (s.delete key).2)
  | .expire now key ttl => some (.expire (s.expire now key ttl).1, (s.expire now key ttl).2)
  | .sweep index passes => (s.sweepShard index passes).map fun s => (.done, s)

/-- The store after the calls of a run, if none of them panics. -/
def after (s : Store) : List Act → Option Store
  | [] => some s
  | a :: acts => do
    let (_, s) ← s.exec a
    s.after acts

/-- The stores that some run of calls leads to. -/
def Reached (s : Store) : Prop :=
  ∃ (shardCount : ℤ) (acts : List Act), (newWithShards shardCount).after acts = some s

/-- The results of the calls of a run, if none of them panics. -/
def replies (s : Store) : List Act → Option (List Reply)
  | [] => some []
  | a :: acts => do
    let (reply, s) ← s.exec a
    let rest ← s.replies acts
    return reply :: rest

end Store

end DistCache
