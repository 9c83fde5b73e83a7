import Nexora.Cluster.ShardMap

/-!
# The control plane of a node

A control plane holds the map of the shards, the voters and what it knows of their health
(`nexora-zenoh/src/control.rs`). Here is what it does by itself: the check for a majority, the
failover without consensus, and the rebalancing.
-/

namespace Nexora.Control
open Lib Nexora.Cluster

structure NodeHealth where
  alive : Bool
  deriving DecidableEq

inductive ControlError
  | noQuorum (voters required : Nat)
  | shardNotFound (shardId : Nat)
  | staleProposal (proposed current : Nat)
  | nodeNotFound (nodeId : NodeName)
  | nodeAlreadyExists (nodeId : NodeName)
  | cannotRemoveLastNode
  | raftError (message : String)
  deriving DecidableEq

structure FencingToken where
  shardId : Nat
  epoch : OwnerEpoch
  deriving DecidableEq

structure ControlPlane where
  shardMap : ShardMap
  voters : List NodeName
  nodeHealth : NodeName → Option NodeHealth
  members : List NodeName
  replicationFactor : Nat

def assign (map : ShardMap) (shard : Nat) (assignment : OwnedShard) : ShardMap :=
  { map with version := (map.version + 1) % 2 ^ 64, assignments := map.assignments.put shard assignment }

@[simp] theorem get_assign (map : ShardMap) (shard shard' : Nat) (assignment : OwnedShard) :
    (assign map shard assignment).get shard' = if shard' = shard then some assignment else map.get shard' :=
  Table.find?_put map.assignments shard assignment shard'

/-- The owner that takes over from a replica is no longer one of the replicas. -/
def promote (assignment : OwnedShard) (owner : NodeName) : OwnedShard where
  owner := owner
  replicas := assignment.replicas.filter (· ≠ owner)
  epoch := assignment.epoch + 1
  writable := true

namespace ControlPlane
variable (plane : ControlPlane)

def holdsAlive (node : NodeName) : Bool := (plane.nodeHealth node).any (·.alive)

def aliveVoters : Nat := plane.voters.countP plane.holdsAlive

/-- A plane without voters is always healthy. -/
def quorumHealthy : Bool :=
  plane.voters.length = 0 || plane.voters.length / 2 + 1 ≤ plane.aliveVoters

def noQuorum : ControlError := .noQuorum plane.aliveVoters (plane.voters.length / 2 + 1)

def failoverShardAuto (shard : Nat) : ControlPlane × Except ControlError (Option FencingToken) :=
  if plane.quorumHealthy then
    match plane.shardMap.get shard with
    | none => (plane, .error (.shardNotFound shard))
    | some assignment =>
      match assignment.replicas.find? plane.holdsAlive with
      | some owner =>
        ({ plane with shardMap := assign plane.shardMap shard (promote assignment owner) },
          .ok (some ⟨shard, assignment.epoch + 1⟩))
      | none => ({ plane with shardMap := assign plane.shardMap shard { assignment with writable := false } }, .ok none)
  else (plane, .error plane.noQuorum)

end ControlPlane

/-! ### Rebalancing -/

def rebalanceEntry (entry : Option OwnedShard) (target : OwnedShard) : OwnedShard :=
  let old := entry.getD target
  { owner := target.owner
    replicas := target.replicas
    epoch := if old.owner ≠ target.owner then old.epoch + 1 else old.epoch
    writable := true }

def adopt (assignments target : Table Nat OwnedShard) : Table Nat OwnedShard :=
  target.rows.foldl (fun table row => table.put row.1 (rebalanceEntry (table.find? row.1) row.2)) assignments

theorem find?_adopt (assignments target : Table Nat OwnedShard) (shard : Nat) :
    (adopt assignments target).find? shard =
      ((target.find? shard).map (rebalanceEntry (assignments.find? shard))).or (assignments.find? shard) := by
  have hfold : ∀ rows : List (Nat × OwnedShard), (rows.Pairwise fun a b => a.1 < b.1) →
      ∀ table : Table Nat OwnedShard,
      (rows.foldl (fun table row => table.put row.1 (rebalanceEntry (table.find? row.1) row.2)) table).find? shard =
        (((rows.find? fun row => row.1 = shard).map Prod.snd).map (rebalanceEntry (table.find? shard))).or (table.find? shard) := by
    intro rows hsorted
    induction rows with
    | nil => exact fun _ => rfl
    | cons row rows ih =>
      intro table
      obtain ⟨hfirst, hrest⟩ := List.pairwise_cons.mp hsorted
      rw [List.foldl_cons, ih hrest, Table.find?_put, List.find?_cons]
      by_cases hshard : shard = row.1
      · -- The keys are distinct, so that no later row is for this shard.
        have hlater : (rows.find? fun row' => decide (row'.1 = shard)) = none := by
          apply List.find?_eq_none.mpr
          intro row' hrow'
          have hlt := hfirst row' hrow'
          simp only [decide_eq_true_eq]
          omega
        rw [hlater, if_pos hshard, hshard]
        simp
      · rw [if_neg hshard, decide_eq_false fun heq => hshard heq.symm]
  exact hfold target.rows target.sorted assignments

def movedShards (assignments target : Table Nat OwnedShard) : List (Nat × NodeName × NodeName) :=
  target.rows.filterMap fun row =>
    let old := (assignments.find? row.1).getD row.2
    if old.owner ≠ row.2.owner then some (row.1, old.owner, row.2.owner) else none

section Placed
variable {assignments target : Table Nat OwnedShard}

theorem adopt_eq_self (h : ∀ shard t, target.find? shard = some t →
      ∃ a, assignments.find? shard = some a ∧ a.owner = t.owner ∧ a.replicas = t.replicas ∧
        a.writable = true) :
    adopt assignments target = assignments := by
  apply Table.ext_find?
  intro shard
  rw [find?_adopt]
  cases ht : target.find? shard with
  | none => rfl
  | some t =>
    obtain ⟨⟨⟨owner, replicas⟩, epoch, writable⟩, ha, rfl, rfl, rfl⟩ := h shard t ht
    rw [ha]
    simp [rebalanceEntry]

theorem movedShards_eq_nil_iff : movedShards assignments target = [] ↔
    ∀ shard t, target.find? shard = some t →
      ∀ a, assignments.find? shard = some a → a.owner = t.owner := by
  rw [movedShards, List.filterMap_eq_nil_iff]
  constructor
  · intro h shard t ht a ha
    simpa [ha] using h (shard, t) (Table.find?_eq_some_iff.mp ht)
  · intro h row hrow
    have howner := h row.1 row.2 (Table.find?_eq_some_iff.mpr hrow)
    cases ha : assignments.find? row.1 with
    | none => simp
    | some a => simp [howner a ha]

end Placed

namespace ControlPlane
variable (plane : ControlPlane)

/-- A placement on these members leaves every shard of the map with its owner. -/
def OwnersPlaced (members : List NodeName) (replicationFactor : Nat) : Prop :=
  ∀ shard target, (ShardMap.newDistributedRf plane.shardMap.totalShards members
      plane.shardMap.localNode replicationFactor).get shard = some target →
    ∀ a, plane.shardMap.get shard = some a → a.owner = target.owner

/-- The shards are where a placement on these members would put them, and writable. -/
def AlreadyPlaced (members : List NodeName) (replicationFactor : Nat) : Prop :=
  ∀ shard target, (ShardMap.newDistributedRf plane.shardMap.totalShards members
      plane.shardMap.localNode replicationFactor).get shard = some target →
    ∃ a, plane.shardMap.get shard = some a ∧ a.owner = target.owner ∧
      a.replicas = target.replicas ∧ a.writable = true

variable {plane} in
theorem AlreadyPlaced.ownersPlaced {members : List NodeName} {replicationFactor : Nat}
    (h : plane.AlreadyPlaced members replicationFactor) :
    plane.OwnersPlaced members replicationFactor := by
  intro shard target htarget a ha
  obtain ⟨a', ha', howner, -⟩ := h shard target htarget
  rw [ha'] at ha
  cases ha
  exact howner

/-- The entries are changed in place, also where no owner is another one and nothing is returned. -/
def rebalanceForMembers (members : List NodeName) (replicationFactor : Nat) :
    ControlPlane × Option (ShardMap × List (Nat × NodeName × NodeName)) :=
  if members = [] then (plane, none)
  else
    let map := plane.shardMap
    let target := (ShardMap.newDistributedRf map.totalShards members map.localNode replicationFactor).assignments
    let moved := movedShards map.assignments target
    let assignments := adopt map.assignments target
    if moved = [] then ({ plane with shardMap := { map with assignments := assignments } }, none)
    else
      let map := { map with version := (map.version + 1) % 2 ^ 64, assignments := assignments }
      ({ plane with shardMap := map }, some (map, moved))

variable {members : List NodeName}

theorem get_rebalanceForMembers (h : members ≠ []) (replicationFactor shard : Nat) :
    (plane.rebalanceForMembers members replicationFactor).1.shardMap.get shard =
      (((ShardMap.newDistributedRf plane.shardMap.totalShards members plane.shardMap.localNode replicationFactor).get shard).map
        (rebalanceEntry (plane.shardMap.get shard))).or (plane.shardMap.get shard) := by
  unfold rebalanceForMembers
  rw [if_neg h]
  dsimp only
  split <;> exact find?_adopt plane.shardMap.assignments _ shard

theorem rebalanceForMembers_of_ownersPlaced {replicationFactor : Nat} (hmembers : members ≠ [])
    (h : plane.OwnersPlaced members replicationFactor) :
    plane.rebalanceForMembers members replicationFactor =
      ({ plane with shardMap := { plane.shardMap with
          assignments := adopt plane.shardMap.assignments (ShardMap.newDistributedRf
            plane.shardMap.totalShards members plane.shardMap.localNode
            replicationFactor).assignments } }, none) := by
  rw [rebalanceForMembers, if_neg hmembers]
  exact if_pos (movedShards_eq_nil_iff.mpr h)

theorem AlreadyPlaced.rebalanceForMembers {plane : ControlPlane} {replicationFactor : Nat}
    (h : plane.AlreadyPlaced members replicationFactor) :
    plane.rebalanceForMembers members replicationFactor = (plane, none) := by
  by_cases hmembers : members = []
  · exact if_pos hmembers
  · rw [rebalanceForMembers_of_ownersPlaced plane hmembers h.ownersPlaced, adopt_eq_self h]

theorem shardMap_of_rebalanceForMembers {replicationFactor : Nat} {plane' : ControlPlane}
    {map : ShardMap} {moved : List (Nat × NodeName × NodeName)}
    (h : plane.rebalanceForMembers members replicationFactor = (plane', some (map, moved))) :
    plane'.shardMap = map := by
  unfold rebalanceForMembers at h
  dsimp only at h
  split at h
  · cases h
  · split at h
    · cases h
    · cases h
      rfl

def rebalanceMembers : ControlPlane × Except ControlError (List (Nat × NodeName × NodeName)) :=
  let (plane, result) := plane.rebalanceForMembers plane.members plane.replicationFactor
  (plane, .ok (result.elim [] (·.2)))

def addNode (nodeId : NodeName) :
    ControlPlane × Except ControlError (List (Nat × NodeName × NodeName)) :=
  if plane.quorumHealthy then
    if nodeId ∈ plane.members then (plane, .error (.nodeAlreadyExists nodeId))
    else { plane with members := (plane.members ++ [nodeId]).insertionSort (· ≤ ·) }.rebalanceMembers
  else (plane, .error plane.noQuorum)

/-- The node is gone from the members also where the last one was to be removed and the call
fails. -/
def removeNode (nodeId : NodeName) :
    ControlPlane × Except ControlError (List (Nat × NodeName × NodeName)) :=
  if plane.quorumHealthy then
    if nodeId ∈ plane.members then
      let plane := { plane with members := plane.members.filter (· ≠ nodeId) }
      if plane.members = [] then (plane, .error .cannotRemoveLastNode) else plane.rebalanceMembers
    else (plane, .error (.nodeNotFound nodeId))
  else (plane, .error plane.noQuorum)

end ControlPlane
end Nexora.Control
