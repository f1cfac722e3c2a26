/-
  A server with the goroutines that `cmd/cachenode/main.go` starts beside it: the sweeper of its
  store, and the decay of its hot key detector.
-/
import DistCache.Service
import DistCache.Sweeper

namespace DistCache.CacheServer

/-- What happens to a server. -/
inductive Event where
  | call (now : Time) (call : ServerCall)
  /-- A tick of `decayLoop`. -/
  | decay
  /-- The sweeper visits a shard. -/
  | sweep (index : ℕ) (passes : List Pass)

/-- A tick of the decay loop, if the server has a mitigator. -/
def decay (cs : CacheServer) : CacheServer :=
  { cs with
    hotKeyMitigator := cs.hotKeyMitigator.map fun mt =>
      { mt with detector := mt.detector.decay } }

/-- A visit of the sweeper; it visits shards of the store only. -/
def sweep (cs : CacheServer) (index : ℕ) (passes : List Pass) : CacheServer :=
  match cs.store.sweepShard index passes with
  | none => cs
  | some store => { cs with store }

def event (cs : CacheServer) : Event → CacheServer
  | .call now call => cs.call now call
  | .decay => cs.decay
  | .sweep index passes => cs.sweep index passes

end DistCache.CacheServer
