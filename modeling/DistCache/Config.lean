/-
  The configuration of a node (`config/config.go`), as far as `Validate` reads it, and what
  `main` builds from it.

  `SeedNodes`, `GossipAddr` and `LogLevel` are not checked, and are left out.  `MaxLoadFactor`
  is an exact number.
-/
import DistCache.Replication

namespace DistCache

structure Config where
  nodeID : NodeID
  grpcAddr : GoString
  httpAddr : GoString
  replicaCount : ℤ
  virtualNodes : ℤ
  sweepInterval : Duration
  maxLoadFactor : ℚ

/-- The fields that `Validate` checks. -/
inductive ConfigField where
  | nodeID
  | grpcAddr
  | httpAddr
  | replicaCount
  | virtualNodes
  | sweepInterval
  | maxLoadFactor
  deriving DecidableEq

/-- The name of a field in the configuration file and in the errors. -/
def ConfigField.name : ConfigField → String
  | nodeID => "node_id"
  | grpcAddr => "grpc_addr"
  | httpAddr => "http_addr"
  | replicaCount => "replica_count"
  | virtualNodes => "virtual_nodes"
  | sweepInterval => "sweep_interval"
  | maxLoadFactor => "max_load_factor"

inductive ConfigError where
  | required (field : ConfigField)
  | lessThanOne (field : ConfigField) (got : ℤ)
  | notPositive (field : ConfigField) (got : Duration)
  | negative (field : ConfigField) (got : ℚ)
  deriving DecidableEq

/-- The text of an error, up to the value that it prints at the end. -/
def ConfigError.text : ConfigError → String
  | required field => field.name ++ " is required"
  | lessThanOne field _ => field.name ++ " must be >= 1, got "
  | notPositive field _ => field.name ++ " must be positive, got "
  | negative field _ => field.name ++ " must be >= 0, got "

namespace Config

/-- `DefaultConfig`. -/
def default : Config where
  nodeID := []
  grpcAddr := ascii [':', '7', '0', '0', '1']
  httpAddr := ascii [':', '9', '0', '0', '1']
  replicaCount := 3
  virtualNodes := 150
  sweepInterval := 100 * millisecond
  maxLoadFactor := 1 / 4

/-- The check of a string. -/
def checkSet (field : ConfigField) (value : GoString) : Except ConfigError Unit :=
  if value = [] then .error (.required field) else .ok ()

/-- The check of a count. -/
def checkCount (field : ConfigField) (value : ℤ) : Except ConfigError Unit :=
  if value < 1 then .error (.lessThanOne field value) else .ok ()

/-- `Validate`. -/
def validate (c : Config) : Except ConfigError Unit := do
  checkSet .nodeID c.nodeID
  checkSet .grpcAddr c.grpcAddr
  checkSet .httpAddr c.httpAddr
  checkCount .replicaCount c.replicaCount
  checkCount .virtualNodes c.virtualNodes
  if c.sweepInterval ≤ 0 then .error (.notPositive .sweepInterval c.sweepInterval)
  if c.maxLoadFactor < 0 then .error (.negative .maxLoadFactor c.maxLoadFactor)
  .ok ()

/-- The ring that `main` builds: it holds the node itself. -/
def ring (S : SortSlice) (c : Config) : Ring :=
  ((Ring.new c.virtualNodes c.maxLoadFactor).addNode S c.nodeID).1

/-- The replication manager that `main` builds. -/
def replicationMgr (c : Config) : ReplicationManager := .new c.nodeID c.replicaCount

end Config

end DistCache
