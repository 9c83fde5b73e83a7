import Nexora.Control.ClusterManager

/-!
# The shape of the shard map

No shard should have its owner among its replicas, or a replica twice. Changes that name the new
owner leave the replicas as they are, and keep this shape exactly as long as the new owner is not
one of them.
-/

namespace Nexora.Control
open Lib Nexora.Cluster Option ControlStateMachine ControlPlane

namespace ControlPlane
variable (plane : ControlPlane)

def failoverShard (shard : Nat) (newOwner : NodeName) :
    ControlPlane × Except ControlError FencingToken :=
  if plane.quorumHealthy then
    match plane.shardMap.get shard with
    | none => (plane, .error (.shardNotFound shard))
    | some a =>
      ({ plane with
          shardMap := assign plane.shardMap shard { a with owner := newOwner, epoch := a.epoch + 1, writable := true } },
        .ok ⟨shard, a.epoch + 1⟩)
  else (plane, .error plane.noQuorum)

def reassigned (aliveNodes : List NodeName) (shard : Nat) (a : OwnedShard) : OwnedShard :=
  match aliveNodes[shard % aliveNodes.length]? with
  | none => a
  | some newOwner => if a.owner ≠ newOwner then { a with owner := newOwner, epoch := a.epoch + 1 } else a

def rebalanceShards (aliveNodes : List NodeName) : ControlPlane × Option ShardMap :=
  if aliveNodes = [] then (plane, none)
  else
    let map := plane.shardMap
    let map := { map with
      version := (map.version + 1) % 2 ^ 64
      assignments := map.assignments.mapRows (reassigned aliveNodes) }
    ({ plane with shardMap := map }, some map)

end ControlPlane

/-- A call on the map: without consensus, or with a command that the state machine applies. -/
inductive ShapeCall
  | mark (node : NodeName) (alive : Bool)
  | failoverShard (shard : Nat) (newOwner : NodeName)
  | failoverShardAuto (shard : Nat)
  | rebalanceShards (aliveNodes : List NodeName)
  | rebalanceForMembers (members : List NodeName) (replicationFactor : Nat)
  | committedFailover (shard : Nat) (newOwner : NodeName) (faults : StoreFaults)
  | committedFailoverAuto (shard : Nat) (faults : StoreFaults)

namespace RaftControlPlane
variable {B : Type} (json : Serde ShardMap B)

def withPlane (s : RaftControlPlane B) (plane : ControlPlane) : RaftControlPlane B :=
  { s with plane := plane }

def shapeStep (s : RaftControlPlane B) : ShapeCall → RaftControlPlane B
  | .mark node alive => s.withPlane (s.plane.mark node alive)
  | .failoverShard shard newOwner => s.withPlane (s.plane.failoverShard shard newOwner).1
  | .failoverShardAuto shard => s.withPlane (s.plane.failoverShardAuto shard).1
  | .rebalanceShards aliveNodes => s.withPlane (s.plane.rebalanceShards aliveNodes).1
  | .rebalanceForMembers members replicationFactor => s.withPlane (s.plane.rebalanceForMembers members replicationFactor).1
  | .committedFailover shard newOwner faults => (s.failoverShard json shard newOwner faults).1
  | .committedFailoverAuto shard faults => (s.failoverShardAuto json shard faults).1

structure Shaped (s : RaftControlPlane B) : Prop where
  copy : s.plane.shardMap.Proper
  stored : ∃ map, s.sm.storedMap json = some map ∧ map.Proper

/-- A new owner that is named is none of the replicas of the shard. -/
def KeepsShape (s : RaftControlPlane B) : ShapeCall → Prop
  | .failoverShard shard newOwner => s.plane.quorumHealthy = true → ∀ a, s.plane.shardMap.get shard = some a →
    newOwner ∉ a.replicas
  | .rebalanceShards aliveNodes => ∀ shard a, s.plane.shardMap.get shard = some a →
    ∀ newOwner ∈ aliveNodes[shard % aliveNodes.length]?, newOwner ∉ a.replicas
  | .committedFailover shard newOwner faults => faults.read = none → faults.write = none →
    ∀ map, s.sm.storedMap json = some map → ∀ a, map.get (UInt32.ofNat shard).toNat = some a →
      newOwner ∉ a.replicas ∧ ∀ b, s.plane.shardMap.get shard = some b → newOwner ∉ b.replicas
  | _ => True

end RaftControlPlane

/-! ### Changes of one shard -/

section
variable {map : ShardMap} {a : OwnedShard}

theorem proper_handed_iff (h : a.Proper) (owner : NodeName) (epoch : OwnerEpoch) (writable : Bool) :
    ({ a with owner := owner, epoch := epoch, writable := writable } : OwnedShard).Proper ↔
    owner ∉ a.replicas :=
  ⟨fun hhanded => hhanded.owner_notMem, fun hnot => ⟨h.nodup, hnot⟩⟩

theorem proper_promote (h : a.Proper) (owner : NodeName) : (promote a owner).Proper :=
  ⟨h.nodup.filter _, by simp [promote]⟩

theorem proper_assign_iff (h : map.Proper) (shard : Nat) (b : OwnedShard) :
    (assign map shard b).Proper ↔ b.Proper := by
  constructor
  · intro hmap
    exact hmap shard b (by rw [get_assign, if_pos rfl])
  · intro hb other c hc
    rw [get_assign] at hc
    split at hc
    · rw [← some.inj hc]
      exact hb
    · exact h other c hc

variable {plane : ControlPlane}
section
variable (h : plane.shardMap.Proper)
include h

theorem proper_failoverShard_iff (shard : Nat) (newOwner : NodeName) :
    (plane.failoverShard shard newOwner).1.shardMap.Proper ↔
      (plane.quorumHealthy = true → ∀ a, plane.shardMap.get shard = some a → newOwner ∉ a.replicas) := by
  unfold failoverShard
  split
  · next hquorum =>
    split
    · next hnone => exact iff_of_true h fun _ a ha => absurd (hnone.symm.trans ha) (by simp)
    · next a ha =>
      rw [proper_assign_iff h, proper_handed_iff (h shard a ha)]
      exact ⟨fun hnot _ b hb => some.inj (ha.symm.trans hb) ▸ hnot, fun hnot => hnot hquorum a ha⟩
  · next hquorum => exact iff_of_true h fun htrue => absurd htrue hquorum

theorem proper_failoverShardAuto (shard : Nat) :
    (plane.failoverShardAuto shard).1.shardMap.Proper := by
  unfold failoverShardAuto
  split
  · split
    · exact h
    · next a ha =>
      split
      · exact (proper_assign_iff h shard _).mpr (proper_promote (h shard a ha) _)
      · exact (proper_assign_iff h shard _).mpr ⟨(h shard a ha).nodup, (h shard a ha).owner_notMem⟩
  · exact h

/-! ### Changes of all shards -/

omit h in
theorem proper_reassigned_iff (h : a.Proper) (aliveNodes : List NodeName) (shard : Nat) :
    (reassigned aliveNodes shard a).Proper ↔
      ∀ newOwner ∈ aliveNodes[shard % aliveNodes.length]?, newOwner ∉ a.replicas := by
  unfold reassigned
  cases aliveNodes[shard % aliveNodes.length]? with
  | none => exact iff_of_true h fun _ hnone => absurd hnone (by simp)
  | some newOwner =>
    simp only [mem_some_iff, forall_eq']
    split
    · exact proper_handed_iff h newOwner _ a.writable
    · next hsame =>
      rw [← not_not.mp hsame]
      exact iff_of_true h h.owner_notMem

theorem proper_rebalanceShards_iff (aliveNodes : List NodeName) :
    (plane.rebalanceShards aliveNodes).1.shardMap.Proper ↔
      ∀ shard a, plane.shardMap.get shard = some a →
        ∀ newOwner ∈ aliveNodes[shard % aliveNodes.length]?, newOwner ∉ a.replicas := by
  unfold rebalanceShards
  split
  · next hnil =>
    refine iff_of_true h fun shard a _ newOwner hmem => ?_
    rw [hnil] at hmem
    exact absurd hmem (by simp)
  · have hget : ∀ shard, (plane.shardMap.assignments.mapRows (reassigned aliveNodes)).find? shard =
        (plane.shardMap.get shard).map (reassigned aliveNodes shard) := fun shard => Table.find?_mapRows _ _ shard
    constructor
    · intro hmap shard a ha
      refine (proper_reassigned_iff (h shard a ha) aliveNodes shard).mp (hmap shard _ ?_)
      exact (hget shard).trans (congrArg _ ha)
    · intro hnot shard b hb
      obtain ⟨a, ha, rfl⟩ := map_eq_some_iff.mp ((hget shard).symm.trans hb)
      exact (proper_reassigned_iff (h shard a ha) aliveNodes shard).mpr (hnot shard a ha)

theorem proper_rebalanceForMembers (members : List NodeName) (replicationFactor : Nat) :
    (plane.rebalanceForMembers members replicationFactor).1.shardMap.Proper := by
  by_cases hmembers : members = []
  · rw [rebalanceForMembers, if_pos hmembers]
    exact h
  · intro shard b hb
    rw [plane.get_rebalanceForMembers hmembers] at hb
    cases htarget : (ShardMap.newDistributedRf plane.shardMap.totalShards members plane.shardMap.localNode
        replicationFactor).get shard with
    | none =>
      rw [htarget] at hb
      exact h shard b hb
    | some target =>
      rw [htarget] at hb
      obtain rfl := some.inj hb
      have hplaced := (ShardMap.wellPlaced_newDistributedRf plane.shardMap.totalShards members plane.shardMap.localNode
        replicationFactor).proper shard target htarget
      exact ⟨hplaced.nodup, hplaced.owner_notMem⟩

end
end

/-! ### Commands -/

namespace RaftControlPlane
variable {B : Type} {json : Serde ShardMap B} {s : RaftControlPlane B}

theorem Shaped.withPlane_iff (h : s.Shaped json) (plane : ControlPlane) :
    (s.withPlane plane).Shaped json ↔ plane.shardMap.Proper :=
  ⟨fun hs => hs.copy, fun hcopy => ⟨hcopy, h.stored⟩⟩

theorem proper_cacheShard_iff (h : s.plane.shardMap.Proper) (shard : Nat)
    (change : OwnedShard → OwnedShard) :
    (s.cacheShard shard change).plane.shardMap.Proper ↔ ∀ b, s.plane.shardMap.get shard = some b → (change b).Proper := by
  unfold cacheShard
  split
  · next b hb =>
    show (assign s.plane.shardMap shard (change b)).Proper ↔ _
    rw [proper_assign_iff h, hb]
    simp
  · next hnone => exact iff_of_true h fun b hb => absurd (hnone.symm.trans hb) (by simp)

theorem sm_cacheShard (s : RaftControlPlane B) (shard : Nat) (change : OwnedShard → OwnedShard) :
    (s.cacheShard shard change).sm = s.sm := by
  unfold cacheShard
  split <;> rfl

section
variable (hjson : ∀ map, json.Keeps map) (h : s.Shaped json)
include hjson h

theorem shaped_committedFailover_iff (shard : Nat) (newOwner : NodeName) (faults : StoreFaults) :
    (s.failoverShard json shard newOwner faults).1.Shaped json ↔
      s.KeepsShape json (.committedFailover shard newOwner faults) := by
  obtain ⟨map, hmap, hproper⟩ := h.stored
  simp only [KeepsShape, hmap, some.injEq, forall_eq']
  obtain ⟨new, response, hread, hwrite, hnew, hstored, hresponse⟩ | ⟨hnot, message, hfail⟩ :=
    changeShardMap_cases hjson hmap (failover (.ofNat shard) newOwner) faults
  · cases ha : map.get (UInt32.ofNat shard).toNat with
    | none =>
      simp only [failover, ha] at hnew
      cases hnew
    | some a =>
      simp only [failover, ha] at hnew
      cases hnew
      simp only [failoverShard, applyFailoverShard, hresponse, hread, hwrite,
        some.injEq, forall_eq', true_imp_iff]
      generalize (s.sm.changeShardMap json _ _).1 = sm at hstored
      have hcopy := @proper_cacheShard_iff _ { s with sm := sm } h.copy shard fun b =>
        { b with owner := newOwner, epoch := a.epoch + 1, writable := true }
      have hhanded := (proper_assign_iff hproper (UInt32.ofNat shard).toNat _).trans
        (proper_handed_iff (hproper _ a ha) newOwner (a.epoch + 1) true)
      constructor
      · rintro ⟨hcached, map', hmap', hproper'⟩
        rw [sm_cacheShard, hstored] at hmap'
        rw [← some.inj hmap'] at hproper'
        exact ⟨hhanded.mp hproper', fun b hb => (proper_handed_iff (h.copy shard b hb) _ _ _).mp (hcopy.mp hcached b hb)⟩
      · rintro ⟨hmachine, hcached⟩
        refine ⟨hcopy.mpr fun b hb => (proper_handed_iff (h.copy shard b hb) _ _ _).mpr (hcached b hb), ?_⟩
        rw [sm_cacheShard]
        exact ⟨_, hstored, hhanded.mpr hmachine⟩
  · simp only [failoverShard, applyFailoverShard, hfail]
    refine iff_of_true h fun hread hwrite a ha => ?_
    simp only [failover, ha] at hnot
    exact absurd rfl (hnot _ _ hread hwrite)

theorem shaped_committedFailoverAuto (shard : Nat) (faults : StoreFaults) :
    (s.failoverShardAuto json shard faults).1.Shaped json := by
  obtain ⟨map, hmap, hproper⟩ := h.stored
  constructor
  · intro other b hb
    have hsame := assignment_failoverShardAuto json s shard faults other
    rw [hb] at hsame
    obtain ⟨a, ha, hab⟩ := map_eq_some_iff.mp hsame.symm
    have hb' : b.toShardAssignment = a.toShardAssignment := hab.symm
    have ha' := h.copy other a ha
    exact ⟨hb' ▸ ha'.nodup, hb' ▸ ha'.owner_notMem⟩
  · have hsm : (s.failoverShardAuto json shard faults).1.sm = s.sm ∨ (s.failoverShardAuto json shard faults).1.sm =
        (s.sm.changeShardMap json (failoverAuto (.ofNat shard)) faults).1 := by
      unfold failoverShardAuto
      split
      · dsimp only
        split
        · exact .inr (sm_cacheShard _ _ _)
        · exact .inr (sm_cacheShard _ _ _)
        · exact .inr rfl
        · exact .inr rfl
      · exact .inl rfl
    rcases hsm with hsm | hsm
    · rw [hsm]
      exact h.stored
    · rw [hsm]
      obtain ⟨new, response, -, -, hnew, hstored, -⟩ | ⟨-, message, hfail⟩ :=
        changeShardMap_cases hjson hmap (failoverAuto (.ofNat shard)) faults
      · refine ⟨new, hstored, ?_⟩
        unfold failoverAuto at hnew
        split at hnew
        · cases hnew
        · next a ha =>
          split at hnew
          · cases hnew
            exact (proper_assign_iff hproper _ _).mpr (proper_promote (hproper _ a ha) _)
          · cases hnew
            exact (proper_assign_iff hproper _ _).mpr ⟨(hproper _ a ha).nodup, (hproper _ a ha).owner_notMem⟩
      · rw [hfail]
        exact h.stored

theorem shaped_shapeStep_iff (call : ShapeCall) :
    (s.shapeStep json call).Shaped json ↔ s.KeepsShape json call := by
  cases call with
  | mark node alive => exact iff_of_true ((h.withPlane_iff _).mpr h.copy) trivial
  | failoverShard shard newOwner => exact (h.withPlane_iff _).trans (proper_failoverShard_iff h.copy shard newOwner)
  | failoverShardAuto shard => exact iff_of_true ((h.withPlane_iff _).mpr (proper_failoverShardAuto h.copy shard)) trivial
  | rebalanceShards aliveNodes => exact (h.withPlane_iff _).trans (proper_rebalanceShards_iff h.copy aliveNodes)
  | rebalanceForMembers members replicationFactor =>
    exact iff_of_true ((h.withPlane_iff _).mpr (proper_rebalanceForMembers h.copy members replicationFactor)) trivial
  | committedFailover shard newOwner faults => exact shaped_committedFailover_iff hjson h shard newOwner faults
  | committedFailoverAuto shard faults => exact iff_of_true (shaped_committedFailoverAuto hjson h shard faults) trivial

end

/-- **The shape of the map.** From a first map, all maps of a run are of the shape exactly if no
call names a replica as the new owner. -/
theorem shaped_throughout_iff_along (hjson : ∀ map, json.Keeps map)
    {totalShards replicationFactor : Nat} {nodes : List NodeName} {localNode : NodeName}
    (hcopy : s.plane.shardMap = .newDistributedRf totalShards nodes localNode replicationFactor)
    (hstored : s.sm.storedMap json = some (.newDistributedRf totalShards nodes localNode replicationFactor))
    (calls : List ShapeCall) :
    (∀ k, (run (shapeStep json) s (calls.take k)).Shaped json) ↔ Along (shapeStep json)
    (KeepsShape json) s calls := by
  have hfirst := (ShardMap.wellPlaced_newDistributedRf totalShards nodes localNode replicationFactor).proper
  refine @forall_take_iff_along _ _ _ _ (Shaped json) (Shaped json) ?_ (fun _ h => h) ?_ s
    ⟨hcopy ▸ hfirst, _, hstored, hfirst⟩ calls
  · intro s call hs hkeeps
    exact (shaped_shapeStep_iff hjson hs call).mpr hkeeps
  · intro s call hs hnot hshaped
    exact hnot ((shaped_shapeStep_iff hjson hs call).mp hshaped)

def firstMap : ShardMap := .newDistributedRf 2 ["a", "b", "c"] "a" 2

def onNodeA : RaftControlPlane ShardMap where
  plane := { shardMap := firstMap, voters := [], nodeHealth := fun _ => none, members := ["a", "b", "c"], replicationFactor := 2 }
  router := none
  sm := holding firstMap

/-- Shard 0 is failed over to `c`, which is no replica of it, and the nodes that are left are dealt
the shards. -/
theorem shaped_throughout_failover_to_c : onNodeA.plane.shardMap = firstMap ∧
    ∀ k, (run (shapeStep plainMaps) onNodeA (List.take k
      [.failoverShard 0 "c", .rebalanceForMembers ["b", "c"] 2])).Shaped plainMaps := by
  have hkeeps : ∀ map, plainMaps.Keeps map := fun _ => rfl
  refine ⟨rfl, (@shaped_throughout_iff_along _ _ onNodeA hkeeps 2 2 ["a", "b", "c"] "a" rfl rfl _).mpr ⟨?_, trivial, trivial⟩⟩
  intro _ a ha
  cases ha
  decide

/-- Node `b` takes shard 0 over and stays its replica. -/
theorem not_shaped_failover_to_b :
    ¬ (run (shapeStep plainMaps) onNodeA [.failoverShard 0 "b"]).Shaped plainMaps := by
  intro h
  exact absurd (h.copy 0 _ rfl).owner_notMem (by decide)

end RaftControlPlane
end Nexora.Control
