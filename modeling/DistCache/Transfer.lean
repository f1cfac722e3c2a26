/-
  Bulk transfer of keys (`TransferKeys` in `internal/server/grpc_server.go`).

  The handler streams the entries of the store through the callback of `ForEach`.  What
  `Send` returns is a parameter: the error of its `n`-th call, if it fails.
-/
import DistCache.Server

namespace DistCache

/-- A request for the keys of a hash range. -/
structure TransferKeysRequest where
  rangeStart : UInt64
  rangeEnd : UInt64
  requestingNode : NodeID

/-- A single entry of a bulk transfer. -/
structure KeyValuePair where
  key : Key
  value : Value
  ttlMs : Int64
  deriving DecidableEq

/-- The pair that an entry is sent as. -/
def KeyValuePair.ofVisit (key : Key) (value : Value) (ttl : Duration) : KeyValuePair :=
  ⟨key, value, ttl.milliseconds⟩

/-- `TransferKeys`: the error it returns (`none` is `nil`), and the pairs passed to `Send`.  The
    range of the request is not looked at, and an error of `Send` only ends the iteration. -/
def CacheServer.transferKeys (cs : CacheServer) (ord : RangeOrder Key Entry) (now : Time)
    (_req : TransferKeysRequest) (sendErr : ℕ → Option GoString) :
    Option GoString × List KeyValuePair :=
  let calls := cs.store.forEach ord now
    (fun calls key value ttl =>
      (calls ++ [.ofVisit key value ttl], (sendErr calls.length).isNone)) []
  (none, calls)

end DistCache
