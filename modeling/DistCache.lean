import DistCache.Basic
import DistCache.Lib.Run
import DistCache.Lib.Circle
import DistCache.Lib.CountMin
import DistCache.Lib.Lru
import DistCache.Lib.Slots
import DistCache.Lib.Channel
import DistCache.Ring
import DistCache.Store
import DistCache.Sweeper
import DistCache.Hotkey
import DistCache.Replication
import DistCache.Server
import DistCache.Cluster
import DistCache.Proof.Ring
import DistCache.Proof.Names
import DistCache.Proof.Ownership
import DistCache.Proof.BoundedLoad
import DistCache.Proof.Lookup
import DistCache.Proof.Traffic
import DistCache.Proof.Store
import DistCache.Proof.Server
import DistCache.Proof.Scan
import DistCache.Proof.Sampling
import DistCache.Proof.Calls
import DistCache.Proof.TtlMap
import DistCache.Proof.Proxy
import DistCache.Proof.Converge
import DistCache.Proof.Refine
import DistCache.Membership
import DistCache.Proof.Membership
import DistCache.Proof.Queue
import DistCache.Proof.Gossip
import DistCache.Proof.Stale
import DistCache.Wiring
import DistCache.Swim
import DistCache.Proof.Swim
import DistCache.Proof.Peers
import DistCache.Proof.Suspicion
import DistCache.Proof.Watch
import DistCache.Proof.Relay
import DistCache.Proof.Refute
import DistCache.Proof.Probe
import DistCache.Proof.Incarnation
import DistCache.Proof.Views
import DistCache.Proof.Placement
import DistCache.Proof.Stats
import DistCache.Proof.Sweep
import DistCache.Transfer
import DistCache.Proof.Transfer
import DistCache.Proof.Deletes
import DistCache.Net
import DistCache.Proof.Failover
import DistCache.Proof.Join
import DistCache.Handlers
import DistCache.Proof.Sequence
import DistCache.L1
import DistCache.Proof.L1
import DistCache.Proof.Lru
import DistCache.Client
import DistCache.Proof.Client
import DistCache.Config
import DistCache.Proof.Agreement
import DistCache.Proof.Session
import DistCache.Proof.Expiry
import DistCache.Service
import DistCache.Proof.WireTtl
import DistCache.Proof.Sketch
import DistCache.Sections
import DistCache.Proof.Sections
import DistCache.Proof.Records
import DistCache.Proof.Dissemination
import DistCache.Proof.Rejoin
import DistCache.Node
import DistCache.Proof.Callbacks
import DistCache.Proof.Node
import DistCache.Proof.Quiesce
import DistCache.Proof.Ack
import DistCache.Proof.Split
import DistCache.Proof.Transparent
import DistCache.Fleet
import DistCache.Proof.Fleet
import DistCache.Proof.Provenance
import DistCache.Proof.Numbering
import DistCache.Proof.Routing
import DistCache.Proof.Linear
import DistCache.Replicator
import DistCache.Proof.Replicator
import DistCache.Proof.Delivery
import DistCache.Proof.Detector
import DistCache.Proof.Isolation
import DistCache.Upkeep
import DistCache.Proof.Hotspot
import DistCache.SweepLoop
import DistCache.Proof.SweepLoop
import DistCache.Chaos
import DistCache.Proof.Chaos
import DistCache.Clients
import DistCache.Proof.Recent
