import Nexora.Control.MapEpochs

/-!
# The control plane's copy of the committed map

With consensus attached, the state machine applies the changes of the map, and the control plane
changes its own copy after the response and hands it to the router. The response says less than the
state machine did, and members change on the copy alone.
-/

namespace Nexora.Control
open Lib Nexora.Cluster ControlStateMachine

/-- A control plane with the map its router has, and the state machine its commands are applied
by. -/
structure RaftControlPlane (B : Type) where
  plane : ControlPlane
  router : Option ShardMap
  sm : ControlStateMachine B

namespace RaftControlPlane
variable {B : Type} (json : Serde ShardMap B)

def cache (s : RaftControlPlane B) (map : ShardMap) : RaftControlPlane B :=
  { s with plane := { s.plane with shardMap := map }, router := s.router.map fun _ => map }

def cacheShard (s : RaftControlPlane B) (shard : Nat) (change : OwnedShard → OwnedShard) :
    RaftControlPlane B :=
  match s.plane.shardMap.get shard with
  | some assignment => s.cache (assign s.plane.shardMap shard (change assignment))
  | none => s.cache s.plane.shardMap

def proposeShardMapUpdate (s : RaftControlPlane B) (proposed : ShardMap) (faults : StoreFaults) :
    RaftControlPlane B × Except ControlError Bool :=
  match json.toVec proposed with
  | none => (s, .error (.raftError "serialize map"))
  | some bytes =>
    let (sm, response) := s.sm.applyProposeShardMap json bytes faults
    let s := { s with sm := sm }
    match response with
    | .mapAccepted version =>
      (s.cache (if s.plane.shardMap.version < version then proposed else s.plane.shardMap), .ok true)
    | .error message => (s, .error (.raftError message))
    | _ => (s, .error (.raftError "unexpected response"))

/-- The number of the shard is cut to 32 bits for the command. -/
def failoverShard (s : RaftControlPlane B) (shard : Nat) (newOwner : NodeName)
    (faults : StoreFaults) :
    RaftControlPlane B × Except ControlError FencingToken :=
  let (sm, response) := s.sm.applyFailoverShard json (.ofNat shard) newOwner faults
  let s := { s with sm := sm }
  match response with
  | .failoverToken _ epoch =>
    (s.cacheShard shard fun a => { a with owner := newOwner, epoch := epoch, writable := true }, .ok ⟨shard, epoch⟩)
  | .error message => (s, .error (.raftError message))
  | _ => (s, .error (.raftError "unexpected response"))

/-- Of a promotion the copy learns the epoch, and neither the owner nor the replicas. -/
def failoverShardAuto (s : RaftControlPlane B) (shard : Nat) (faults : StoreFaults) :
    RaftControlPlane B × Except ControlError (Option FencingToken) :=
  if s.plane.quorumHealthy then
    let (sm, response) := s.sm.applyFailoverShardAuto json (.ofNat shard) faults
    let s := { s with sm := sm }
    match response with
    | .failoverPromoted _ epoch =>
      (s.cacheShard shard fun a => { a with epoch := epoch, writable := true }, .ok (some ⟨shard, epoch⟩))
    | .failoverNoReplica _ => (s.cacheShard shard fun a => { a with writable := false }, .ok none)
    | .error message => (s, .error (.raftError message))
    | _ => (s, .error (.raftError "unexpected response"))
  else (s, .error s.plane.noQuorum)

def addNode (s : RaftControlPlane B) (nodeId : NodeName) : RaftControlPlane B :=
  { s with plane := (s.plane.addNode nodeId).1 }

def removeNode (s : RaftControlPlane B) (nodeId : NodeName) : RaftControlPlane B :=
  { s with plane := (s.plane.removeNode nodeId).1 }

end RaftControlPlane

inductive PlaneCall
  | propose (proposed : ShardMap) (faults : StoreFaults)
  | failoverShard (shard : Nat) (newOwner : NodeName) (faults : StoreFaults)
  | failoverShardAuto (shard : Nat) (faults : StoreFaults)
  | addNode (nodeId : NodeName)
  | removeNode (nodeId : NodeName)

namespace RaftControlPlane
variable {B : Type} (json : Serde ShardMap B)

def step (s : RaftControlPlane B) : PlaneCall → RaftControlPlane B
  | .propose proposed faults => (s.proposeShardMapUpdate json proposed faults).1
  | .failoverShard shard newOwner faults => (s.failoverShard json shard newOwner faults).1
  | .failoverShardAuto shard faults => (s.failoverShardAuto json shard faults).1
  | .addNode nodeId => s.addNode nodeId
  | .removeNode nodeId => s.removeNode nodeId

/-- **The copy and the router's map say of every shard what the stored map says.** -/
def Agrees (s : RaftControlPlane B) : Prop :=
  ∃ map, s.sm.storedMap json = some map ∧ (∀ shard, s.plane.shardMap.get shard = map.get shard) ∧
    ∀ routed ∈ s.router, ∀ shard, routed.get shard = map.get shard

end RaftControlPlane

namespace RaftControlPlane
variable {B : Type} (json : Serde ShardMap B)

/-- The numbers of the shards fit into 32 bits, a shard that is failed over without a new owner has
no replicas, and members come and go without a change of the placement. -/
def Faithful (s : RaftControlPlane B) : PlaneCall → Prop
  | .propose _ _ => True
  | .failoverShard shard _ _ => shard < 2 ^ 32
  | .failoverShardAuto shard _ => s.plane.quorumHealthy = true →
    shard < 2 ^ 32 ∧ ∀ a, s.plane.shardMap.get shard = some a → a.replicas = []
  | .addNode nodeId => s.plane.quorumHealthy = true → nodeId ∉ s.plane.members →
    s.plane.AlreadyPlaced ((s.plane.members ++ [nodeId]).insertionSort (· ≤ ·))
      s.plane.replicationFactor
  | .removeNode nodeId => s.plane.quorumHealthy = true → nodeId ∈ s.plane.members →
    s.plane.members.filter (· ≠ nodeId) ≠ [] →
    s.plane.AlreadyPlaced (s.plane.members.filter (· ≠ nodeId)) s.plane.replicationFactor

structure InStep (s : RaftControlPlane B) (map : ShardMap) : Prop where
  stored : s.sm.storedMap json = some map
  get : ∀ shard, s.plane.shardMap.get shard = map.get shard
  version : s.plane.shardMap.version = map.version
  routed : ∀ routed ∈ s.router, ∀ shard, routed.get shard = map.get shard

variable {json} {s : RaftControlPlane B} {map : ShardMap}

theorem InStep.agrees (h : s.InStep json map) : s.Agrees json := ⟨map, h.stored, h.get, h.routed⟩

variable {sm : ControlStateMachine B} {shard : Nat}

theorem InStep.cache {new copy : ShardMap} (hstored : sm.storedMap json = some new)
    (hget : ∀ shard, copy.get shard = new.get shard) (hversion : copy.version = new.version)
    (s : RaftControlPlane B) :
    ({ s with sm := sm }.cache copy).InStep json new := by
  refine ⟨hstored, hget, hversion, ?_⟩
  intro routed hrouted
  obtain ⟨_, _, rfl⟩ := Option.map_eq_some_iff.mp hrouted
  exact hget

theorem InStep.cacheShard (h : s.InStep json map) {a b : OwnedShard} (ha : map.get shard = some a)
    (hstored : sm.storedMap json = some (assign map shard b)) {change : OwnedShard → OwnedShard}
    (hchange : change a = b) :
    ({ s with sm := sm }.cacheShard shard change).InStep json (assign map shard b) := by
  have hcopy : s.plane.shardMap.get shard = some a := (h.get shard).trans ha
  simp only [RaftControlPlane.cacheShard, hcopy, hchange]
  apply InStep.cache hstored
  · intro other
    rw [get_assign, get_assign, h.get other]
  · show (s.plane.shardMap.version + 1) % 2 ^ 64 = (map.version + 1) % 2 ^ 64
    rw [h.version]

section
variable (hjson : ∀ map, json.Keeps map) (h : s.InStep json map)
include hjson h

theorem InStep.propose (proposed : ShardMap) (faults : StoreFaults) :
    ∃ new, (s.proposeShardMapUpdate json proposed faults).1.InStep json new := by
  obtain ⟨bytes, hbytes, hproposed⟩ := (hjson proposed).exists_toVec
  obtain ⟨new, response, -, -, hnew, hstored, hresponse⟩ | ⟨-, message, hfail⟩ :=
    changeShardMap_cases hjson h.stored (acceptNewer proposed) faults
  · unfold acceptNewer at hnew
    split at hnew
    · cases hnew
    · next hnewer =>
      cases hnew
      refine ⟨proposed, ?_⟩
      have hversion : s.plane.shardMap.version < proposed.version := by
        rw [h.version]
        omega
      simp only [proposeShardMapUpdate, hbytes, applyProposeShardMap, hproposed, hresponse, hversion, if_true]
      exact cache hstored (fun _ => rfl) rfl s
  · refine ⟨map, ?_⟩
    simp only [proposeShardMapUpdate, hbytes, applyProposeShardMap, hproposed, hfail]
    exact h

theorem InStep.failoverShard (hshard : shard < 2 ^ 32) (newOwner : NodeName)
    (faults : StoreFaults) :
    ∃ new, (s.failoverShard json shard newOwner faults).1.InStep json new := by
  have hnat : (UInt32.ofNat shard).toNat = shard := UInt32.toNat_ofNat_of_lt' hshard
  obtain ⟨new, response, -, -, hnew, hstored, hresponse⟩ | ⟨-, message, hfail⟩ :=
    changeShardMap_cases hjson h.stored (failover (.ofNat shard) newOwner) faults
  · cases ha : map.get shard with
    | none =>
      simp only [failover, hnat, ha] at hnew
      cases hnew
    | some a =>
      simp only [failover, hnat, ha] at hnew
      cases hnew
      simp only [RaftControlPlane.failoverShard, applyFailoverShard, hresponse]
      exact ⟨_, h.cacheShard ha hstored rfl⟩
  · refine ⟨map, ?_⟩
    simp only [RaftControlPlane.failoverShard, applyFailoverShard, hfail]
    exact h

theorem InStep.failoverShardAuto
    (hshard : s.plane.quorumHealthy = true → shard < 2 ^ 32 ∧ ∀ a, s.plane.shardMap.get shard = some a → a.replicas = [])
    (faults : StoreFaults) : ∃ new, (s.failoverShardAuto json shard faults).1.InStep json new := by
  cases hquorum : s.plane.quorumHealthy with
  | false =>
    refine ⟨map, ?_⟩
    simp only [RaftControlPlane.failoverShardAuto, hquorum, Bool.false_eq_true, if_false]
    exact h
  | true =>
    obtain ⟨hlt, hreplicas⟩ := hshard hquorum
    have hnat : (UInt32.ofNat shard).toNat = shard := UInt32.toNat_ofNat_of_lt' hlt
    obtain ⟨new, response, -, -, hnew, hstored, hresponse⟩ | ⟨-, message, hfail⟩ :=
      changeShardMap_cases hjson h.stored (failoverAuto (.ofNat shard)) faults
    · cases ha : map.get shard with
      | none =>
        simp only [failoverAuto, hnat, ha] at hnew
        cases hnew
      | some a =>
        have hnil : a.replicas = [] := hreplicas a ((h.get shard).trans ha)
        simp only [failoverAuto, hnat, ha, hnil, List.head?_nil] at hnew
        cases hnew
        simp only [RaftControlPlane.failoverShardAuto, hquorum, if_true, applyFailoverShardAuto, hresponse]
        exact ⟨_, h.cacheShard ha hstored rfl⟩
    · refine ⟨map, ?_⟩
      simp only [RaftControlPlane.failoverShardAuto, hquorum, if_true, applyFailoverShardAuto, hfail]
      exact h

end
end RaftControlPlane

/-! ### Rebalancing what is already placed -/

namespace ControlPlane

theorem AlreadyPlaced.rebalanceMembers {plane : ControlPlane}
    (h : plane.AlreadyPlaced plane.members plane.replicationFactor) :
    plane.rebalanceMembers.1.shardMap = plane.shardMap := by
  rw [ControlPlane.rebalanceMembers, h.rebalanceForMembers]

end ControlPlane

namespace RaftControlPlane
variable {B : Type} {json : Serde ShardMap B} {s : RaftControlPlane B} {map : ShardMap}

theorem InStep.of_same (h : s.InStep json map) {plane : ControlPlane}
    (hsame : plane.shardMap = s.plane.shardMap) :
    ({ s with plane := plane } : RaftControlPlane B).InStep json map :=
  ⟨h.stored, fun shard => by rw [hsame]; exact h.get shard, by rw [hsame]; exact h.version, h.routed⟩

theorem InStep.addNode (h : s.InStep json map) {nodeId : NodeName}
    (hplaced : s.plane.quorumHealthy = true → nodeId ∉ s.plane.members →
      s.plane.AlreadyPlaced ((s.plane.members ++ [nodeId]).insertionSort (· ≤ ·))
        s.plane.replicationFactor) :
    (s.addNode nodeId).InStep json map := by
  apply h.of_same
  unfold ControlPlane.addNode
  split
  · next hquorum =>
    split
    · rfl
    · next hnew =>
      have hmembers := hplaced hquorum hnew
      exact hmembers.rebalanceMembers
  · rfl

theorem InStep.removeNode (h : s.InStep json map) {nodeId : NodeName}
    (hplaced : s.plane.quorumHealthy = true → nodeId ∈ s.plane.members →
      s.plane.members.filter (· ≠ nodeId) ≠ [] →
      s.plane.AlreadyPlaced (s.plane.members.filter (· ≠ nodeId)) s.plane.replicationFactor) :
    (s.removeNode nodeId).InStep json map := by
  apply h.of_same
  unfold ControlPlane.removeNode
  split
  · next hquorum =>
    split
    · next hmember =>
      dsimp only
      split
      · rfl
      · next hleft =>
        have hmembers := hplaced hquorum hmember hleft
        exact hmembers.rebalanceMembers
    · rfl
  · rfl

theorem InStep.step (hjson : ∀ map, json.Keeps map) (h : s.InStep json map) {call : PlaneCall}
    (hcall : s.Faithful call) :
    ∃ new, (s.step json call).InStep json new := by
  cases call with
  | propose proposed faults => exact h.propose hjson proposed faults
  | failoverShard shard newOwner faults => exact h.failoverShard hjson hcall newOwner faults
  | failoverShardAuto shard faults => exact h.failoverShardAuto hjson hcall faults
  | addNode nodeId => exact ⟨map, h.addNode hcall⟩
  | removeNode nodeId => exact ⟨map, h.removeNode hcall⟩

/-- **The copy follows the committed map** through every sequence of faithful calls. -/
theorem copyAgrees_of_along (hjson : ∀ map, json.Keeps map) (h : s.InStep json map)
    {calls : List PlaneCall} (halong : Along (step json) Faithful s calls) :
    (run (step json) s calls).Agrees json := by
  have hinv :=
    @run_invariant _ _ _ _ (fun s => ∃ map, InStep json s map) (fun s call hs hcall => hs.elim fun _ hmap => hmap.step hjson hcall)
      _ ⟨map, h⟩ _ halong
  exact hinv.elim fun _ hmap => hmap.agrees

def single : RaftControlPlane ShardMap where
  plane :=
    { shardMap := oneShard 1 "a" 1
      voters := []
      nodeHealth := fun _ => none
      members := ["a", "b"]
      replicationFactor := 1 }
  router := some (oneShard 1 "a" 1)
  sm := holding (oneShard 1 "a" 1)

theorem agrees_propose_then_failover : (run (step plainMaps) single
      [.propose (oneShard 4 "a" 3) .none, .failoverShard 0 "b" .none]).Agrees
      plainMaps := by
  have hkeeps : ∀ map, plainMaps.Keeps map := fun _ => rfl
  have hstart : single.InStep plainMaps (oneShard 1 "a" 1) := by
    refine ⟨rfl, fun _ => rfl, rfl, ?_⟩
    intro routed hrouted
    cases hrouted
    exact fun _ => rfl
  have hshard : 0 < 2 ^ 32 := by decide
  exact copyAgrees_of_along hkeeps hstart ⟨trivial, hshard, trivial⟩

/-- The replica that is promoted is the owner in the stored map, and the copy still has the old
one. -/
theorem not_agrees_failoverShardAuto :
    ¬ (run (step plainMaps) single [.failoverShardAuto 0 .none]).Agrees plainMaps := by
  rintro ⟨map, hstored, hget, -⟩
  cases hstored
  have howner := congrArg (Option.map fun a : OwnedShard => a.owner) (hget 0)
  exact absurd howner (by decide)

end RaftControlPlane
end Nexora.Control
