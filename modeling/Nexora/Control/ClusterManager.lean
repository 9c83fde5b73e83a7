import Nexora.Control.Cache

/-!
# Registered replica sets and the shard map

A cluster manager registers the replica sets of its shards with the replica writer when it is made
(`nexora-zenoh/src/cluster.rs`). Failovers and rebalances change the map, and nothing is registered
any more. A shard without a registered set is committed by its owner alone.
-/

namespace Nexora.Cluster
open Lib

namespace ReplicaWriter

def Registers (w : ReplicaWriter) (shard : Nat) (replicas : List NodeName) : Prop :=
  ∀ node, node ∈ w.followers shard ↔ node ∈ replicas

def RegistersOwn (w : ReplicaWriter) (nodeId : NodeName) (map : ShardMap) : Prop :=
  ∀ shard a, map.get shard = some a → a.owner = nodeId → w.Registers shard a.replicas

def RegistersPlacement (w : ReplicaWriter) (nodeId : NodeName) (map : ShardMap)
    (members : List NodeName) (replicationFactor : Nat) : Prop :=
  w.RegistersOwn nodeId (.newDistributedRf map.totalShards members map.localNode replicationFactor)

end ReplicaWriter

structure OwnedShard.Proper (assignment : OwnedShard) : Prop where
  nodup : assignment.replicas.Nodup
  owner_notMem : assignment.owner ∉ assignment.replicas

def ShardMap.Proper (map : ShardMap) : Prop :=
  ∀ shard assignment, map.get shard = some assignment → assignment.Proper

variable {map : ShardMap} {nodeId : NodeName}

theorem ShardMap.WellPlaced.proper {totalShards replicationFactor : Nat} {nodes : List NodeName}
    (h : map.WellPlaced totalShards nodes replicationFactor) : map.Proper :=
  fun shard assignment hget => ⟨h.nodup shard assignment hget, h.owner_notMem shard assignment hget⟩

def localReplicaSets (nodeId : NodeName) (map : ShardMap) (hmap : map.Proper) (shard : Nat) :
    Option ReplicaSet :=
  match hget : map.get shard with
  | none => none
  | some assignment =>
    if assignment.owner = nodeId ∧ assignment.replicas ≠ [] then
      some
        { owner := assignment.owner
          followers := assignment.replicas
          nodup := (hmap shard assignment hget).nodup
          owner_notMem := (hmap shard assignment hget).owner_notMem }
    else none

theorem localReplicaSets_of_get (hmap : map.Proper) {shard : Nat} {a : OwnedShard}
    (hget : map.get shard = some a) (howner : a.owner = nodeId) :
    (localReplicaSets nodeId map hmap shard).elim [] ReplicaSet.followers = a.replicas := by
  unfold localReplicaSets
  split
  · next hnone => rw [hget] at hnone; cases hnone
  · next b hb =>
    cases hget.symm.trans hb
    split
    · rfl
    · next hnot =>
      by_contra hne
      exact hnot ⟨howner, fun hnil => hne hnil.symm⟩

theorem owner_of_localReplicaSets (hmap : map.Proper) {shard : Nat} {set : ReplicaSet}
    (h : localReplicaSets nodeId map hmap shard = some set) : set.owner = nodeId := by
  unfold localReplicaSets at h
  split at h
  · cases h
  · split at h
    · next howner =>
      cases h
      exact howner.1
    · cases h

end Nexora.Cluster

namespace Nexora.Control
open Lib Nexora.Cluster

/-- What a cluster manager does and has done to it. The failure detector marks nodes as failed,
fails their shards over one by one and publishes the map; nodes that are added or removed go through
the control plane first and are then rebalanced for. -/
inductive ManagerCall
  | markNodeAlive (node : NodeName)
  | markNodeFailed (node : NodeName)
  | failover (shard : Nat) (faults : StoreFaults)
  | publish
  | addNode (node : NodeName)
  | removeNode (node : NodeName)
  | rebalance (members : List NodeName)
  | write (call : QuorumWrite)

/-- The manager of a node; `attached` tells whether its control plane has been given consensus. -/
structure ClusterManager (B : Type) where
  nodeId : NodeName
  control : RaftControlPlane B
  attached : Bool
  replicationFactor : Nat
  writer : ReplicaWriter

def ControlPlane.mark (plane : ControlPlane) (node : NodeName) (alive : Bool) : ControlPlane :=
  { plane with nodeHealth := Function.update plane.nodeHealth node (some ⟨alive⟩) }

namespace ClusterManager
variable {B : Type}

def new (nodeId : NodeName) (control : RaftControlPlane B) (hmap : control.plane.shardMap.Proper)
    (attached : Bool) (replicationFactor : Nat) (replicationLog : Nat → Nat) :
    ClusterManager B where
  nodeId := nodeId
  control := control
  attached := attached
  replicationFactor := replicationFactor
  writer :=
    { replicaSets := localReplicaSets nodeId control.plane.shardMap hmap
      writeConcern := .majority
      replicationLog := some replicationLog
      progress := some .empty
      taken := ∅ }

def map (m : ClusterManager B) : ShardMap := m.control.plane.shardMap

def withPlane (m : ClusterManager B) (plane : ControlPlane) : ClusterManager B :=
  { m with control := { m.control with plane := plane } }

variable (json : Serde ShardMap B)

def step (m : ClusterManager B) : ManagerCall → ClusterManager B
  | .markNodeAlive node => m.withPlane (m.control.plane.mark node true)
  | .markNodeFailed node => m.withPlane (m.control.plane.mark node false)
  | .failover shard faults =>
    if m.attached then { m with control := (m.control.failoverShardAuto json shard faults).1 }
    else m.withPlane (m.control.plane.failoverShardAuto shard).1
  | .publish => { m with control := m.control.cache m.map }
  | .addNode node => { m with control := m.control.addNode node }
  | .removeNode node => { m with control := m.control.removeNode node }
  | .rebalance members =>
    match m.control.plane.rebalanceForMembers members m.replicationFactor with
    | (plane, some (map, _)) => { m with control := { m.control with plane := plane }.cache map }
    | (plane, none) => m.withPlane plane
  | .write call => { m with writer := (m.writer.quorumWrite call).1 }

/-- A write that leaves no follower out is sent to the replicas that the map lists for its shard,
and its quorum is counted over the owner and these replicas. -/
def WriteFollows (m : ClusterManager B) (call : QuorumWrite) : Prop :=
  ∀ a, m.map.get call.shard = some a → a.owner = m.nodeId → (∀ node, call.outcome node ≠ .skipped) →
    ∀ node, (node ∈ m.writer.sentTo call ↔ node ∈ a.replicas) ∧
      (node ∈ m.writer.countedOver m.nodeId call.shard ↔ node = a.owner ∨ node ∈ a.replicas)

/-- **Replication follows the map** on the shards that the node owns. -/
def ReplicationFollows (m : ClusterManager B) : Prop :=
  ∀ call : QuorumWrite, call.duplicate = false → m.WriteFollows call

def FollowsThroughout (m : ClusterManager B) (calls : List ManagerCall) : Prop :=
  ∀ k, (run (step json) m (calls.take k)).ReplicationFollows

/-- A shard comes to this node, or gets other replicas there, only where its registered followers
are those replicas. -/
def Registered (m : ClusterManager B) : ManagerCall → Prop
  | .failover shard _ => m.attached = false → m.control.plane.quorumHealthy = true → ∀ a, m.map.get shard = some a →
    a.replicas.find? m.control.plane.holdsAlive = some m.nodeId →
      m.writer.Registers shard (a.replicas.filter (· ≠ m.nodeId))
  | .addNode node => m.control.plane.quorumHealthy = true → node ∉ m.control.plane.members →
    m.writer.RegistersPlacement m.nodeId m.map ((m.control.plane.members ++ [node]).insertionSort (· ≤ ·))
      m.control.plane.replicationFactor
  | .removeNode node => m.control.plane.quorumHealthy = true → node ∈ m.control.plane.members →
    m.control.plane.members.filter (· ≠ node) ≠ [] →
    m.writer.RegistersPlacement m.nodeId m.map (m.control.plane.members.filter (· ≠ node)) m.control.plane.replicationFactor
  | .rebalance members => members ≠ [] → m.writer.RegistersPlacement m.nodeId m.map members m.replicationFactor
  | .markNodeAlive _ | .markNodeFailed _ | .publish | .write _ => True

/-! ### What is registered -/

structure Seeded (m : ClusterManager B) : Prop where
  own : m.writer.RegistersOwn m.nodeId m.map
  owner : ∀ shard set, m.writer.replicaSets shard = some set → set.owner = m.nodeId

variable {m : ClusterManager B}

theorem seeded_new (nodeId : NodeName) (control : RaftControlPlane B)
    (hmap : control.plane.shardMap.Proper) (attached : Bool) (replicationFactor : Nat)
    (replicationLog : Nat → Nat) :
    (new nodeId control hmap attached replicationFactor replicationLog).Seeded := by
  constructor
  · intro shard a hget howner node
    have hfollowers := localReplicaSets_of_get hmap hget howner
    exact iff_of_eq (congrArg (node ∈ ·) hfollowers)
  · intro shard set hset
    exact owner_of_localReplicaSets hmap hset

theorem Seeded.mem_countedOver_iff (h : m.Seeded) {shard : Nat} {node : NodeName} :
    node ∈ m.writer.countedOver m.nodeId shard ↔ node = m.nodeId ∨ node ∈ m.writer.followers shard := by
  unfold ReplicaWriter.countedOver ReplicaWriter.followers
  cases hset : m.writer.replicaSets shard with
  | none => simp
  | some set =>
    rw [← h.owner shard set hset]
    exact List.mem_cons

theorem Seeded.replicationFollows (h : m.Seeded) : m.ReplicationFollows := by
  intro call _ a hget howner houtcome node
  have hregisters := h.own call.shard a hget howner node
  constructor
  · rw [ReplicaWriter.mem_sentTo_iff, hregisters]
    exact and_iff_left (houtcome node)
  · rw [h.mem_countedOver_iff, hregisters, howner]

theorem registersOwn_of_replicationFollows (h : m.ReplicationFollows) :
    m.writer.RegistersOwn m.nodeId m.map := by
  intro shard a hget howner node
  have hsent := (h ⟨shard, false, fun _ => .succeeded, 0⟩ rfl a hget howner (fun _ heq => by cases heq) node).1
  rw [ReplicaWriter.mem_sentTo_iff] at hsent
  exact (and_iff_left fun heq => by cases heq).symm.trans hsent

end ClusterManager

/-! ### Steps -/

section
variable {w : ReplicaWriter} {nodeId : NodeName} {map new : ShardMap}

theorem registersOwn_of_replicaSets {w' : ReplicaWriter} (h : w'.replicaSets = w.replicaSets) :
    w'.RegistersOwn nodeId map ↔ w.RegistersOwn nodeId map := by
  simp [ReplicaWriter.RegistersOwn, ReplicaWriter.Registers, ReplicaWriter.followers, h]

theorem registersOwn_congr (h : ∀ shard, (new.get shard).map (·.toShardAssignment) = (map.get shard).map (·.toShardAssignment)) :
    w.RegistersOwn nodeId new ↔ w.RegistersOwn nodeId map := by
  have hdirection : ∀ {map new : ShardMap},
      (∀ shard, (new.get shard).map (·.toShardAssignment) = (map.get shard).map (·.toShardAssignment)) →
      w.RegistersOwn nodeId map → w.RegistersOwn nodeId new := by
    intro map new hsame hown shard a ha howner
    have hshard := hsame shard
    rw [ha, Option.map_some] at hshard
    obtain ⟨b, hb, hab⟩ := Option.map_eq_some_iff.mp hshard.symm
    have hregisters := hown shard b hb (by rw [hab]; exact howner)
    rw [hab] at hregisters
    exact hregisters
  exact ⟨hdirection fun shard => (h shard).symm, hdirection h⟩

theorem registersOwn_assign_iff (h : w.RegistersOwn nodeId map) (shard : Nat) (a : OwnedShard) :
    w.RegistersOwn nodeId (assign map shard a) ↔ (a.owner = nodeId → w.Registers shard a.replicas) := by
  constructor
  · intro hown howner
    exact hown shard a (by rw [get_assign, if_pos rfl]) howner
  · intro hshard other b hb howner
    rw [get_assign] at hb
    split at hb
    · next heq =>
      cases hb
      rw [heq]
      exact hshard howner
    · exact h other b hb howner

section
variable {plane : ControlPlane} (h : w.RegistersOwn nodeId plane.shardMap)
include h

theorem registersOwn_failoverShardAuto_iff (shard : Nat) :
    w.RegistersOwn nodeId (plane.failoverShardAuto shard).1.shardMap ↔
      (plane.quorumHealthy = true → ∀ a, plane.shardMap.get shard = some a →
        a.replicas.find? plane.holdsAlive = some nodeId → w.Registers shard (a.replicas.filter (· ≠ nodeId))) := by
  unfold ControlPlane.failoverShardAuto
  split
  · next hquorum =>
    rw [forall_prop_of_true hquorum]
    split
    · next hnone => exact iff_of_true h fun a ha => by cases hnone.symm.trans ha
    · next a ha =>
      simp only [ha, Option.some.injEq, forall_eq']
      split
      · next owner howner =>
        rw [howner, Option.some.injEq]
        refine (registersOwn_assign_iff h shard (promote a owner)).trans ?_
        constructor
        · rintro hpromoted rfl
          exact hpromoted rfl
        · rintro hself rfl
          exact hself rfl
      · next hnone =>
        rw [hnone]
        refine iff_of_true ((registersOwn_assign_iff h shard _).mpr fun howner => h shard a ha howner) ?_
        exact fun hsome => by cases hsome
  · next hquorum => exact iff_of_true h fun hhealthy => absurd hhealthy hquorum

theorem registersOwn_rebalance_iff {members : List NodeName} (hmembers : members ≠ [])
    (replicationFactor : Nat) :
    w.RegistersOwn nodeId (plane.rebalanceForMembers members replicationFactor).1.shardMap ↔
      w.RegistersPlacement nodeId plane.shardMap members replicationFactor := by
  have hget := fun shard => plane.get_rebalanceForMembers hmembers replicationFactor shard
  constructor
  · intro hown shard target htarget howner
    have hshard := hget shard
    rw [htarget] at hshard
    exact hown shard (rebalanceEntry (plane.shardMap.get shard) target) hshard howner
  · intro hplaced shard a ha howner
    rw [hget shard] at ha
    cases htarget : (ShardMap.newDistributedRf plane.shardMap.totalShards members plane.shardMap.localNode
        replicationFactor).get shard with
    | none =>
      rw [htarget] at ha
      exact h shard a ha howner
    | some target =>
      rw [htarget] at ha
      cases ha
      exact hplaced shard target htarget howner

theorem registersOwn_addNode_iff (node : NodeName) :
    w.RegistersOwn nodeId (plane.addNode node).1.shardMap ↔
      (plane.quorumHealthy = true → node ∉ plane.members →
        w.RegistersPlacement nodeId plane.shardMap ((plane.members ++ [node]).insertionSort (· ≤ ·))
          plane.replicationFactor) := by
  unfold ControlPlane.addNode
  split
  · next hquorum =>
    rw [forall_prop_of_true hquorum]
    split
    · next hmember => exact iff_of_true h fun hnot => absurd hmember hnot
    · next hnew =>
      rw [forall_prop_of_true hnew]
      have hmembers : (plane.members ++ [node]).insertionSort (· ≤ ·) ≠ [] := by
        intro hnil
        have hlength := congrArg List.length hnil
        simp at hlength
      exact @registersOwn_rebalance_iff w nodeId { plane with members := (plane.members ++ [node]).insertionSort (· ≤ ·) } h _
        hmembers plane.replicationFactor
  · next hquorum => exact iff_of_true h fun hhealthy => absurd hhealthy hquorum

theorem registersOwn_removeNode_iff (node : NodeName) :
    w.RegistersOwn nodeId (plane.removeNode node).1.shardMap ↔
      (plane.quorumHealthy = true → node ∈ plane.members → plane.members.filter (· ≠ node) ≠ [] →
        w.RegistersPlacement nodeId plane.shardMap (plane.members.filter (· ≠ node)) plane.replicationFactor) := by
  unfold ControlPlane.removeNode
  split
  · next hquorum =>
    rw [forall_prop_of_true hquorum]
    split
    · next hmember =>
      rw [forall_prop_of_true hmember]
      dsimp only
      split
      · next hnil => exact iff_of_true h fun hleft => absurd hnil hleft
      · next hleft =>
        rw [forall_prop_of_true hleft]
        exact @registersOwn_rebalance_iff w nodeId { plane with members := plane.members.filter (· ≠ node) } h _ hleft
          plane.replicationFactor
    · next hnot => exact iff_of_true h fun hmember => absurd hmember hnot
  · next hquorum => exact iff_of_true h fun hhealthy => absurd hhealthy hquorum

end
end

namespace RaftControlPlane
variable {B : Type} (json : Serde ShardMap B)

theorem assignment_cacheShard (s : RaftControlPlane B) (shard : Nat)
    {change : OwnedShard → OwnedShard}
    (hchange : ∀ a, (change a).toShardAssignment = a.toShardAssignment) (other : Nat) :
    ((s.cacheShard shard change).plane.shardMap.get other).map (·.toShardAssignment) =
      (s.plane.shardMap.get other).map (·.toShardAssignment) := by
  unfold cacheShard
  split
  · next a ha =>
    show ((assign s.plane.shardMap shard (change a)).get other).map _ = _
    rw [get_assign]
    split
    · next heq => rw [heq, ha, Option.map_some, Option.map_some, hchange]
    · rfl
  · rfl

theorem assignment_failoverShardAuto (s : RaftControlPlane B) (shard : Nat) (faults : StoreFaults)
    (other : Nat) :
    ((s.failoverShardAuto json shard faults).1.plane.shardMap.get other).map (·.toShardAssignment) =
      (s.plane.shardMap.get other).map (·.toShardAssignment) := by
  unfold failoverShardAuto
  split
  · dsimp only
    split
    · apply assignment_cacheShard
      intro a
      rfl
    · apply assignment_cacheShard
      intro a
      rfl
    · rfl
    · rfl
  · rfl

end RaftControlPlane

namespace ClusterManager
variable {B : Type} {json : Serde ShardMap B} {m : ClusterManager B}

theorem nodeId_step (call : ManagerCall) : (m.step json call).nodeId = m.nodeId := by
  cases call with
  | failover | rebalance =>
    unfold step
    dsimp only
    split <;> rfl
  | _ => rfl

theorem replicaSets_step (call : ManagerCall) :
    (m.step json call).writer.replicaSets = m.writer.replicaSets := by
  cases call with
  | failover | rebalance =>
    unfold step
    dsimp only
    split <;> rfl
  | write call => exact ReplicaWriter.replicaSets_quorumWrite
  | _ => rfl

theorem map_rebalance (members : List NodeName) : (m.step json (.rebalance members)).map =
      (m.control.plane.rebalanceForMembers members m.replicationFactor).1.shardMap := by
  unfold step
  dsimp only
  split
  · next plane map moved heq =>
    rw [heq]
    exact (ControlPlane.shardMap_of_rebalanceForMembers _ heq).symm
  · next plane heq =>
    rw [heq]
    rfl

theorem registersOwn_failover_iff (h : m.writer.RegistersOwn m.nodeId m.map) (shard : Nat)
    (faults : StoreFaults) :
    m.writer.RegistersOwn m.nodeId (m.step json (.failover shard faults)).map ↔
    m.Registered (.failover shard faults) := by
  unfold step Registered
  dsimp only
  cases m.attached with
  | true =>
    refine (registersOwn_congr (m.control.assignment_failoverShardAuto json shard faults)).trans (iff_of_true h ?_)
    exact fun hfalse => Bool.noConfusion hfalse
  | false =>
    rw [forall_prop_of_true rfl]
    exact registersOwn_failoverShardAuto_iff h shard

theorem registersOwn_step_iff (h : m.writer.RegistersOwn m.nodeId m.map) (call : ManagerCall) :
    (m.step json call).writer.RegistersOwn (m.step json call).nodeId (m.step json call).map ↔
    m.Registered call := by
  rw [registersOwn_of_replicaSets (replicaSets_step call), nodeId_step]
  cases call with
  | failover shard faults => exact registersOwn_failover_iff h shard faults
  | addNode node => exact registersOwn_addNode_iff h node
  | removeNode node => exact registersOwn_removeNode_iff h node
  | rebalance members =>
    rw [map_rebalance]
    by_cases hmembers : members = []
    · rw [ControlPlane.rebalanceForMembers, if_pos hmembers]
      exact iff_of_true h fun hne => absurd hmembers hne
    · unfold Registered
      dsimp only
      rw [forall_prop_of_true hmembers]
      exact registersOwn_rebalance_iff h hmembers m.replicationFactor
  | markNodeAlive | markNodeFailed | publish | write => exact iff_of_true h trivial

/-- **Replication follows the map** in every state of a run exactly when each step meets the
condition where it is taken. -/
theorem followsThroughout_iff_along (nodeId : NodeName) (control : RaftControlPlane B)
    (hmap : control.plane.shardMap.Proper) (attached : Bool) (replicationFactor : Nat)
    (replicationLog : Nat → Nat) (calls : List ManagerCall) :
    (new nodeId control hmap attached replicationFactor replicationLog).FollowsThroughout json calls ↔
      Along (step json) Registered (new nodeId control hmap attached replicationFactor replicationLog) calls := by
  refine @forall_take_iff_along _ _ (step json) Registered Seeded ReplicationFollows ?_ ?_ ?_ _ ?_ calls
  · intro m call h hcall
    constructor
    · exact (registersOwn_step_iff h.own call).mpr hcall
    · intro shard set hset
      rw [replicaSets_step] at hset
      rw [nodeId_step]
      exact h.owner shard set hset
  · intro m h
    exact h.replicationFollows
  · intro m call h hcall hfollows
    exact hcall ((registersOwn_step_iff h.own call).mp (registersOwn_of_replicationFollows hfollows))
  · exact seeded_new nodeId control hmap attached replicationFactor replicationLog

def threeNodes (localNode : NodeName) : RaftControlPlane ShardMap where
  plane :=
    { shardMap :=
        { version := 1
          totalShards := 1
          assignments := Table.empty.put 0 { owner := "a", replicas := ["b", "c"], epoch := 1, writable := true }
          localNode := localNode }
      voters := ["a", "b", "c"]
      nodeHealth := fun _ => none
      members := ["a", "b", "c"]
      replicationFactor := 3 }
  router := none
  sm := ControlStateMachine.holding (ControlStateMachine.oneShard 1 "a" 1)

theorem proper_threeNodes (localNode : NodeName) :
    (threeNodes localNode).plane.shardMap.Proper := by
  intro shard a ha
  have hget := ha
  obtain ⟨-, rfl⟩ | ⟨-, hnone⟩ := Table.of_find?_put hget
  · exact ⟨by decide, by decide⟩
  · cases hnone

/-- Node `a` sees its shard given to `b`, and gets it back with the replicas it has registered at
the start. -/
theorem followsThroughout_failover_and_back :
    let calls :=
  [.markNodeAlive "b", .markNodeAlive "c", .failover 0 .none, .rebalance ["a", "b", "c"], .publish]
    let m := new "a" (threeNodes "a") (proper_threeNodes "a") false 3 fun _ => 0
    m.FollowsThroughout ControlStateMachine.plainMaps calls ∧
      ∃ shard, (run (step ControlStateMachine.plainMaps) m (calls.take 3)).map.get 0 = some shard ∧ shard.owner = "b" := by
  refine ⟨(followsThroughout_iff_along "a" (threeNodes "a") (proper_threeNodes "a") false 3 (fun _ => 0) _).mpr
    ⟨trivial, trivial, ?_, ?_, trivial, trivial⟩, _, rfl, rfl⟩
  · intro _ _ a ha hself
    cases ha
    exact absurd hself (by decide)
  · intro _ shard assignment hget howner
    have hput : (Table.empty.put 0 ⟨⟨"a", ["b", "c"]⟩, 1, true⟩).find? shard = some assignment := hget
    obtain ⟨rfl, rfl⟩ | ⟨-, hnone⟩ := Table.of_find?_put hput
    · exact fun _ => Iff.rfl
    · cases hnone

/-- Node `b` is promoted and has registered no replica set: what is written to it then is not sent
to `c`. -/
theorem not_followsThroughout_failover_to_b :
    ¬ (new "b" (threeNodes "b") (proper_threeNodes "b") false 3 fun _ => 0).FollowsThroughout ControlStateMachine.plainMaps
      [.markNodeAlive "b", .markNodeAlive "c", .markNodeFailed "a", .failover 0 .none, .publish] := by
  intro h
  have hwrite := h 5 ⟨0, false, fun _ => .succeeded, 0⟩ rfl
    (promote { owner := "a", replicas := ["b", "c"], epoch := 1, writable := true } "b") rfl rfl
      (fun _ heq => by cases heq) "c"
  have hsent : "c" ∈ ([] : List NodeName) := hwrite.1.mpr (by decide)
  exact absurd hsent List.not_mem_nil

end ClusterManager
end Nexora.Control
