import Nexora.Cluster.DistributedWrite

/-!
# Scans over the owners

A read of all nodes is sent to the owner of every shard and, if that one fails, to the processes
that replicate all its shards (`nexora-zenoh/src/distributed_query.rs`). Whoever answers runs the
query on its whole graph.
-/

namespace Nexora.Cluster
open Lib List

namespace ShardMap
variable (map : ShardMap)

def ownedShards (owner : NodeName) : List (Nat × OwnedShard) :=
  map.assignments.rows.filter fun row => row.2.owner = owner

def candidates (owner : NodeName) : List NodeName :=
  ((map.ownedShards owner).foldl (fun candidates row =>
    let replicas := sortedDistinct (row.2.replicas.filter fun replica => replica ≠ owner)
    match candidates with
    | none => some replicas
    | some candidates => some (candidates.filter fun candidate => candidate ∈ replicas)) none).getD []

def holds (node : NodeName) (shard : Nat) : Bool :=
  (map.get shard).any fun a => node = a.owner || node ∈ a.replicas

end ShardMap

section Scan
variable {map : ShardMap} {shardOf : NexoraId → Nat} {found : NodeName → List NexoraId}
  {concern : ReadConcern} {progress : Option ReplicationProgress}
  {session : Option SessionReadTracker} {up : NodeName → Bool} {failure : NodeName → RouterError}

end Scan

/-! ### A node of shard 0 on two processes -/

def timedOut (_ : NodeName) : RouterError := .remote "timeout"

end Nexora.Cluster
