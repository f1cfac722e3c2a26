/-
  The calls of a server, one after another (`internal/server/grpc_server.go`).
-/
import DistCache.Server

namespace DistCache

/-- A call of the cache service. -/
inductive ServerCall where
  | request (req : Request)
  | replicate (req : ReplicateRequest)

/-- The key of a call. -/
def ServerCall.key : ServerCall → Key
  | .request req => req.key
  | .replicate req => req.key

/-- The server after a call. -/
def CacheServer.call (cs : CacheServer) (now : Time) : ServerCall → CacheServer
  | .request req => (cs.handle now req).2
  | .replicate req => cs.replicate now req

/-- A server with the time of its last call. -/
structure Service where
  server : CacheServer
  clock : Time

namespace Service

def step (s : Service) (a : Time × ServerCall) : Service := ⟨s.server.call a.1 a.2, a.1⟩

end Service

end DistCache
