import Nexora.Cluster.AntiEntropy
import Nexora.Cluster.AtMostOnce
import Nexora.Cluster.DistributedScan
import Nexora.Cluster.DurableLog
import Nexora.Cluster.FailoverCatchUp
import Nexora.Cluster.LogCheckpoint
import Nexora.Cluster.PathJoin
import Nexora.Cluster.QuorumRead
import Nexora.Cluster.TransferFidelity
import Nexora.Cluster.TwoPhaseWrite
import Nexora.Control.ApplyOnce
import Nexora.Control.MapVersions
import Nexora.Control.Quarantine
import Nexora.Control.RaftLogStore
import Nexora.Control.SplitBrain
import Nexora.Control.StoreBackends
import Nexora.Cypher.EdgeWiring
import Nexora.Cypher.Scoping
import Nexora.Fragment.Consolidation
import Nexora.Fragment.Sealer
import Nexora.Graph.BackendAgreement
import Nexora.Graph.ConcurrentSleep
import Nexora.Graph.Durability
import Nexora.Graph.EdgeAgreement
import Nexora.Graph.EdgeProperties
import Nexora.Graph.PropertyAgreement
import Nexora.Graph.RequestIds
import Nexora.Graph.RocksDbKeys
import Nexora.Graph.SnapshotArtifact
import Nexora.Raft.LogReplicator
import Nexora.StandingQuery.Manager
import Nexora.Stream.Barrier
import Nexora.Stream.CheckpointStore
import Nexora.Stream.SourceRecovery
import Nexora.Stream.Watermark
import Nexora.View.Average
import Nexora.View.MaterializedView
import Nexora.Wal.PackedRoundTrip
import Nexora.Wal.WrongKey
