/-
  Hot-key detection and mitigation (`internal/hotkey`).

  The detector counts accesses in a Count-Min Sketch.  The mitigator splits a
  hot key into `shardCount` copies `key:shard_i` in the local store, and later
  writes go to the key and to its copies.
-/
import DistCache.Store

namespace DistCache

/-! ## The sketch -/

/-- A Count-Min Sketch: `depth` rows of `width` counters. -/
structure CountMinSketch where
  width : UInt32
  depth : UInt32
  table : List (List UInt64)
  seeds : List UInt64
  total : UInt64

namespace CountMinSketch

/-- `NewCountMinSketch`. -/
def new (width depth : UInt32) : CountMinSketch :=
  let width := if width = 0 then 4096 else width
  let depth := if depth = 0 then 4 else depth
  { width, depth
    table := List.replicate depth.toNat (List.replicate width.toNat 0)
    seeds := (List.range depth.toNat).map fun i => (i.toUInt32 * 2654435761 + 1).toUInt64
    total := 0 }

/-- The hash of a key in row `i`: FNV-1a of the low bytes of the seed, then the
    key. -/
def hash (cms : CountMinSketch) (key : Key) (i : ℕ) : UInt32 :=
  let seed := cms.seeds.getD i 0
  fnv32a ([seed.toUInt8, (seed >>> 8).toUInt8, (seed >>> 16).toUInt8, (seed >>> 24).toUInt8] ++ key)

/-- The column of a key in row `i`. -/
def column (cms : CountMinSketch) (key : Key) (i : ℕ) : ℕ := (cms.hash key i % cms.width).toNat

/-- `Increment`. -/
def increment (cms : CountMinSketch) (key : Key) : CountMinSketch :=
  { cms with
    table := cms.table.mapIdx fun i row => row.modify (cms.column key i) (· + 1)
    total := cms.total + 1 }

/-- `Decay`: halve every counter. -/
def decay (cms : CountMinSketch) : CountMinSketch :=
  { cms with
    table := cms.table.map fun row => row.map (· / 2)
    total := cms.total / 2 }

/-- `Reset`: zero every counter. -/
def reset (cms : CountMinSketch) : CountMinSketch :=
  { cms with
    table := cms.table.map fun row => row.map fun _ => 0
    total := 0 }

/-- The counter of a key in row `i`. -/
def cell (cms : CountMinSketch) (key : Key) (i : ℕ) : UInt64 :=
  (cms.table.getD i []).getD (cms.column key i) 0

/-- `Estimate`: the minimum over the rows, starting from `math.MaxUint64`. -/
def estimate (cms : CountMinSketch) (key : Key) : UInt64 :=
  let least := (List.range cms.depth.toNat).foldl
    (fun least i => if cms.cell key i < least then cms.cell key i else least) (2 ^ 64 - 1).toUInt64
  if least = (2 ^ 64 - 1).toUInt64 then 0 else least

end CountMinSketch

/-- The hot-key detector. -/
structure Detector where
  sketch : CountMinSketch
  hotThreshold : UInt64

/-- `NewDetector`. -/
def Detector.new (hotThreshold : UInt64) : Detector := ⟨CountMinSketch.new 4096 4, hotThreshold⟩

/-- `RecordAccess`: record an access, and tell whether the key is hot. -/
def Detector.recordAccess (d : Detector) (key : Key) : Bool × Detector :=
  let sketch := d.sketch.increment key
  (d.hotThreshold ≤ sketch.estimate key, { d with sketch })

/-- `GetFrequency`. -/
def Detector.getFrequency (d : Detector) (key : Key) : UInt64 := d.sketch.estimate key

/-- `IsHot`: as `RecordAccess`, without recording an access. -/
def Detector.isHot (d : Detector) (key : Key) : Bool := d.hotThreshold ≤ d.sketch.estimate key

/-- A tick of `decayLoop`. -/
def Detector.decay (d : Detector) : Detector := { d with sketch := d.sketch.decay }

/-! ## The mitigator -/

/-- How a hot key is handled. -/
inductive MitigationStrategy where
  | none
  | keySplit
  | readReplica
  deriving DecidableEq

/-- The mitigator of a node; it acts on the node's store. -/
structure Mitigator where
  detector : Detector
  shardCount : ℕ
  mitigatedKeys : GoMap Key MitigationStrategy
  mitigationCount : UInt64

/-- `ShardKeyName`: `key:shard_i`. -/
def shardKeyName (key : Key) (shardIndex : ℕ) : Key :=
  key ++ ascii [':', 's', 'h', 'a', 'r', 'd', '_'] ++ itoa shardIndex

/-- `hashString`: the hash that selects the shard copy of a client. -/
def hashString (s : GoString) : UInt32 :=
  s.foldl (fun h b => (h ^^^ b.toUInt32) * 16777619) 2166136261

namespace Mitigator

/-- `NewMitigator`. -/
def new (detector : Detector) (shardCount : ℤ) : Mitigator where
  detector := detector
  shardCount := if shardCount < 2 then 4 else shardCount.toNat
  mitigatedKeys := ∅
  mitigationCount := 0

/-- `Set` on every shard copy of a key. -/
def setShards (mt : Mitigator) (s : Store) (now : Time) (key : Key) (value : Value)
    (ttl : Duration) : Store :=
  (List.range mt.shardCount).foldl (fun s i => s.set now (shardKeyName key i) value ttl) s

/-- `applySplitting`: create the shard copies, without expiry. -/
def applySplitting (mt : Mitigator) (s : Store) (now : Time) (key : Key) : Store :=
  match s.get now key with
  | (none, s) => s
  | (some value, s) => mt.setShards s now key value 0

/-- `CheckAndMitigate`: tell whether the key is hot, and split it the first time
    it is. -/
def checkAndMitigate (mt : Mitigator) (s : Store) (now : Time) (key : Key) :
    Bool × Mitigator × Store :=
  let (isHot, detector) := mt.detector.recordAccess key
  let mt := { mt with detector }
  if isHot then
    if key ∈ mt.mitigatedKeys then (true, mt, s)
    else
      (true,
        { mt with
          mitigatedKeys := mt.mitigatedKeys.insert key .keySplit
          mitigationCount := mt.mitigationCount + 1 },
        mt.applySplitting s now key)
  else (false, mt, s)

/-- `IsMitigated`. -/
def isMitigated (mt : Mitigator) (key : Key) : Bool := key ∈ mt.mitigatedKeys

/-- `GetShardedKey`: the copy that a client reads of a split key, and the key itself of any
    other.  The conversion `uint32(shardCount)` truncates, and a zero divisor panics. -/
def getShardedKey (mt : Mitigator) (key : Key) (clientID : GoString) : Option Key :=
  if mt.mitigatedKeys.lookup key = some .keySplit then
    if mt.shardCount.toUInt32 = 0 then none
    else some (shardKeyName key (hashString clientID % mt.shardCount.toUInt32).toNat)
  else some key

/-- `WriteToShards`: write the key, and its copies if it is split. -/
def writeToShards (mt : Mitigator) (s : Store) (now : Time) (key : Key) (value : Value)
    (ttl : Duration) : Store :=
  let s := s.set now key value ttl
  if mt.mitigatedKeys.lookup key = some .keySplit then mt.setShards s now key value ttl else s

end Mitigator

end DistCache
