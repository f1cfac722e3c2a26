/-
  The goroutine of the sweeper (`internal/store/ttl.go`), beside the operations of the store.

  At each tick `run` visits one shard, in turn.  A visit is a sequence of passes, each under the
  lock of the shard; the sections of the other operations come between them.
-/
import DistCache.Sections

namespace DistCache

/-- `DefaultSweepInterval`. -/
def defaultSweepInterval : Duration := 100 * millisecond

/-- A sweeper, with the state of its goroutine. -/
structure Sweeper where
  interval : Duration
  /-- The shard that is visited, or will be at the next tick. -/
  shardIndex : ℕ
  /-- `run` is inside `sweepShard`. -/
  sweeping : Bool
  /-- `stopCh` is closed. -/
  stopped : Bool
  /-- `run` has returned. -/
  returned : Bool

/-- `NewSweeper`, and the start of `run`. -/
def Sweeper.new (interval : Duration) : Sweeper where
  interval := if interval ≤ 0 then defaultSweepInterval else interval
  shardIndex := 0
  sweeping := false
  stopped := false
  returned := false

/-- A store with its sweeper. -/
structure SweptStore where
  locked : LockedStore
  sweeper : Sweeper

/-- The section is a pass of the sweeper. -/
def LockedStore.Act.isPass : LockedStore.Act → Bool
  | .sampleAndExpire .. => true
  | _ => false

namespace SweptStore

/-- A new store, whose sweeper has been started. -/
def start (shardCount : ℤ) (interval : Duration) (clock : Time) : SweptStore :=
  ⟨.start (.newWithShards shardCount) clock, .new interval⟩

/-- The fraction of its sample that a pass finds expired. -/
def fraction (s : SweptStore) (pass : Pass) : ℚ :=
  match s.locked.store.sampleAndExpire s.sweeper.shardIndex pass with
  | none => 0
  | some (expired, _) => expired

/-- `sweepShard` returns, and `run` goes on to the next shard. -/
def endVisit (s : SweptStore) : SweptStore :=
  { s with
    sweeper := { s.sweeper with
      shardIndex := (s.sweeper.shardIndex + 1) % s.locked.store.shards.length
      sweeping := false } }

/-- A pass of `sweepShard`: it is repeated if many of its sample are expired, unless the sweeper
    is stopped. -/
def pass (s : SweptStore) (pass : Pass) : SweptStore :=
  let s' := { s with locked := s.locked.step (.sampleAndExpire s.sweeper.shardIndex pass) }
  if s.fraction pass < expiredThreshold ∨ s.sweeper.stopped = true then s'.endVisit else s'

inductive Act where
  /-- A section of another operation. -/
  | op (a : LockedStore.Act)
  /-- `run` receives a tick, and enters `sweepShard`. -/
  | tick
  | pass (pass : Pass)
  /-- `Stop` closes `stopCh`. -/
  | stop
  /-- `run` receives the stop signal, and returns. -/
  | exit

def step (s : SweptStore) : Act → SweptStore
  | .op a => { s with locked := s.locked.step a }
  | .tick => { s with sweeper := { s.sweeper with sweeping := true } }
  | .pass pass => s.pass pass
  | .stop => { s with sweeper := { s.sweeper with stopped := true } }
  | .exit => { s with sweeper := { s.sweeper with returned := true } }

/-- The other goroutines do not sweep, a pass is taken inside a visit only, and `Stop` is called
    once. -/
def Enabled (s : SweptStore) : Act → Prop
  | .op a => s.locked.Enabled a ∧ a.isPass = false
  | .tick => s.sweeper.sweeping = false ∧ s.sweeper.returned = false
  | .pass pass => s.sweeper.sweeping = true ∧ s.locked.clock ≤ pass.now
  | .stop => s.sweeper.stopped = false
  | .exit => s.sweeper.stopped = true ∧ s.sweeper.sweeping = false ∧ s.sweeper.returned = false

instance (s : SweptStore) : ∀ a, Decidable (s.Enabled a)
  | .op _ | .tick | .pass _ | .exit => inferInstanceAs (Decidable (_ ∧ _))
  | .stop => inferInstanceAs (Decidable (_ = _))

end SweptStore

end DistCache
