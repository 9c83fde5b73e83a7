import Nexora.Cluster.MajorityRead
import Nexora.Lib.RoundRobin

/-!
# The placement of shards

Every node computes the first map of the shards from the list of the members
(`nexora-zenoh/src/shard_map.rs`): the nodes are sorted and the shards dealt out in turn. The map
depends on who is a member only.
-/

namespace Nexora.Cluster
open Lib List RoundRobin

abbrev OwnerEpoch := Fin (2 ^ 64)

/-- The whole of an assignment: beside owner and replicas, which a read goes by, the epoch of the
owner and whether the shard may be written. -/
structure OwnedShard extends ShardAssignment where
  epoch : OwnerEpoch
  writable : Bool

structure ShardMap where
  version : Nat
  totalShards : Nat
  assignments : Table Nat OwnedShard
  localNode : NodeName

namespace ShardMap
variable (totalShards : Nat)

def assignAll (assignment : Nat → OwnedShard) : Table Nat OwnedShard :=
  Table.empty.putAll ((List.range totalShards).map fun shard => (shard, assignment shard))

def newLocalWithNode (nodeId : NodeName) : ShardMap where
  version := 1
  totalShards := totalShards
  assignments := assignAll totalShards fun _ => { owner := nodeId, replicas := [], epoch := 1, writable := true }
  localNode := nodeId

def sortedNodes (nodes : List NodeName) (h : nodes ≠ []) : RoundRobin NodeName where
  members := sortedDistinct nodes
  nodup := nodup_sortedDistinct nodes
  nonempty := fun hnil => h (List.eq_nil_iff_forall_not_mem.mpr fun _ hnode =>
    List.not_mem_nil (hnil ▸ mem_sortedDistinct.mpr hnode))

def newDistributedRf (nodes : List NodeName) (localNode : NodeName) (replicationFactor : Nat) :
    ShardMap :=
  if h : nodes = [] then newLocalWithNode totalShards localNode
  else
    let sorted := sortedNodes nodes h
    let rf := min (max replicationFactor 1) sorted.size
    { version := 1
      totalShards := totalShards
      assignments := assignAll totalShards fun shard =>
        { owner := sorted.turn shard
          replicas := sorted.following (shard % sorted.size) (rf - 1)
          epoch := 1
          writable := true }
      localNode := localNode }

def get (map : ShardMap) (shard : Nat) : Option OwnedShard := map.assignments.find? shard

def owned (map : ShardMap) (node : NodeName) : Nat :=
  map.assignments.rows.countP fun row => row.2.owner = node

structure WellPlaced (totalShards : Nat) (nodes : List NodeName) (replicationFactor : Nat)
    (map : ShardMap) : Prop where
  assigned : ∀ shard < totalShards, (map.get shard).isSome = true
  owner_notMem : ∀ shard assignment, map.get shard = some assignment → assignment.owner ∉ assignment.replicas
  nodup : ∀ shard assignment, map.get shard = some assignment → assignment.replicas.Nodup
  length : ∀ shard assignment, map.get shard = some assignment →
    assignment.replicas.length = min (max replicationFactor 1) nodes.toFinset.card - 1
  members : nodes ≠ [] → ∀ shard assignment, map.get shard = some assignment →
    ∀ node ∈ assignment.owner :: assignment.replicas, node ∈ nodes
  balanced : ∀ node ∈ nodes, ∀ other ∈ nodes, map.owned node ≤ map.owned other + 1

/-! ### One assignment for each shard -/

theorem rows_assignAll (assignment : Nat → OwnedShard) :
    (assignAll totalShards assignment).rows = (List.range totalShards).map fun shard => (shard, assignment shard) := by
  refine Table.rows_putAll ?_
  rw [Table.empty, nil_append, pairwise_map]
  exact pairwise_lt_range

theorem find?_assignAll {totalShards : Nat} {assignment : Nat → OwnedShard} {shard : Nat}
    {a : OwnedShard} :
    (assignAll totalShards assignment).find? shard = some a ↔
    shard < totalShards ∧ assignment shard = a := by
  rw [Table.find?_eq_some_iff, rows_assignAll, mem_map]
  constructor
  · rintro ⟨shard', hshard, hrow⟩
    obtain ⟨rfl, rfl⟩ := Prod.mk.inj hrow
    exact ⟨mem_range.mp hshard, rfl⟩
  · rintro ⟨hshard, rfl⟩
    exact ⟨shard, mem_range.mpr hshard, rfl⟩

/-! ### The first map -/

theorem wellPlaced_newLocalWithNode (localNode : NodeName) (replicationFactor : Nat) :
    WellPlaced totalShards [] replicationFactor (newLocalWithNode totalShards localNode) where
  assigned shard hshard := Option.isSome_iff_exists.mpr ⟨_, find?_assignAll.mpr ⟨hshard, rfl⟩⟩
  owner_notMem shard assignment hget := (find?_assignAll.mp hget).2 ▸ not_mem_nil
  nodup shard assignment hget := (find?_assignAll.mp hget).2 ▸ nodup_nil
  length shard assignment hget := by
    rw [← (find?_assignAll.mp hget).2, toFinset_nil, Finset.card_empty, Nat.min_zero]
    rfl
  members hnodes := absurd rfl hnodes
  balanced node hnode := absurd hnode not_mem_nil

theorem assignments_newDistributedRf_congr {nodes more : List NodeName}
    (h : ∀ node, node ∈ nodes ↔ node ∈ more) {localNode other : NodeName}
    (hlocal : nodes = [] → localNode = other) (totalShards replicationFactor : Nat) :
    (newDistributedRf totalShards nodes localNode replicationFactor).assignments =
      (newDistributedRf totalShards more other replicationFactor).assignments := by
  have hempty : nodes = [] ↔ more = [] := by
    simp [eq_nil_iff_forall_not_mem, h]
  by_cases hnodes : nodes = []
  · rw [newDistributedRf, dif_pos hnodes, newDistributedRf, dif_pos (hempty.mp hnodes), hlocal hnodes]
  · have hsorted : sortedNodes nodes hnodes = sortedNodes more (hempty.not.mp hnodes) := by
      simp [sortedNodes, sortedDistinct_eq_of_mem_iff h]
    rw [newDistributedRf, dif_neg hnodes, newDistributedRf, dif_neg (hempty.not.mp hnodes)]
    simp [hsorted]

theorem wellPlaced_newDistributedRf (nodes : List NodeName) (localNode : NodeName)
    (replicationFactor : Nat) :
    WellPlaced totalShards nodes replicationFactor (newDistributedRf totalShards nodes localNode replicationFactor) := by
  by_cases hnodes : nodes = []
  · subst hnodes
    rw [newDistributedRf, dif_pos rfl]
    exact wellPlaced_newLocalWithNode totalShards localNode replicationFactor
  · rw [newDistributedRf, dif_neg hnodes]
    have hsize : (sortedNodes nodes hnodes).size = nodes.toFinset.card := length_sortedDistinct nodes
    generalize hring : sortedNodes nodes hnodes = ring at hsize ⊢
    have hmembers : ∀ node, node ∈ ring.members ↔ node ∈ nodes := fun node => hring ▸ mem_sortedDistinct
    have hcount : min (max replicationFactor 1) ring.size - 1 < ring.size := by
      have := ring.size_pos
      omega
    have howner : ∀ shard, ring.turn shard = ring.turn (shard % ring.size) := fun shard =>
      turn_eq_iff.mpr (Nat.mod_modEq shard ring.size).symm
    constructor
    case assigned => exact fun shard hshard => Option.isSome_iff_exists.mpr ⟨_, find?_assignAll.mpr ⟨hshard, rfl⟩⟩
    case owner_notMem =>
      intro shard assignment hget
      rw [← (find?_assignAll.mp hget).2, howner shard]
      exact turn_notMem_following hcount
    case nodup =>
      intro shard assignment hget
      rw [← (find?_assignAll.mp hget).2]
      exact nodup_following hcount
    case length =>
      intro shard assignment hget
      rw [← (find?_assignAll.mp hget).2, ← hsize]
      exact ring.length_following _ _
    case members =>
      intro _ shard assignment hget node hnode
      rw [← (find?_assignAll.mp hget).2] at hnode
      rw [← hmembers]
      rcases mem_cons.mp hnode with rfl | hnode
      · exact ring.turn_mem shard
      · obtain ⟨offset, -, rfl⟩ := mem_map.mp hnode
        exact ring.turn_mem _
    case balanced =>
      intro node hnode other hother
      simp only [owned, rows_assignAll, countP_map]
      exact countP_turn_le ((hmembers node).mpr hnode) ((hmembers other).mpr hother) totalShards

/-- **The first map.** Every list of nodes leads to a placement as it should be, and to the same one
as any other list with the same members. -/
theorem newDistributedRf_placement (totalShards : Nat) (nodes : List NodeName)
    (localNode : NodeName) (replicationFactor : Nat) :
    WellPlaced totalShards nodes replicationFactor (newDistributedRf totalShards nodes localNode replicationFactor) ∧
      ∀ more : List NodeName, (∀ node, node ∈ nodes ↔ node ∈ more) →
        (newDistributedRf totalShards more localNode replicationFactor).assignments =
          (newDistributedRf totalShards nodes localNode replicationFactor).assignments :=
  ⟨wellPlaced_newDistributedRf totalShards nodes localNode replicationFactor, fun _ hmore =>
    (assignments_newDistributedRf_congr hmore (fun _ => rfl) totalShards replicationFactor).symm⟩

example : (newDistributedRf 5 ["b", "c", "a", "b"] "a" 2).assignments.rows.map (fun row => (row.2.owner, row.2.replicas)) =
    [("a", ["b"]), ("b", ["c"]), ("c", ["a"]), ("a", ["b"]), ("b", ["c"])] := by decide

end ShardMap
end Nexora.Cluster
