import Nexora.Control.MapShape

/-!
# The versions of a map without consensus

A control plane without consensus changes its map under a lock, raises the version and saves the
map. Its router gets a clone, which arrives after the lock has been released and may be overtaken. A
rebalance that moves no shard to another owner changes entries without a new version.
-/

namespace Nexora.Control
open Lib Nexora.Cluster List ControlPlane

/-- A control plane, what its store and its router hold, and the clones that are under way to the
router. -/
structure PublishedPlane where
  plane : ControlPlane
  stored : ShardMap
  router : ShardMap
  underway : List ShardMap

/-- What is done under the lock of the map, with whether the store takes the map and whether the
caller publishes it. `readMap` is the clone that the failure detector publishes after its
failovers. -/
inductive LockedCall where
  | mark (node : NodeName) (alive : Bool)
  | failoverShard (shard : Nat) (newOwner : NodeName) (saved : Bool)
  | failoverShardAuto (shard : Nat) (saved : Bool)
  | rebalanceShards (aliveNodes : List NodeName) (saved published : Bool)
  | rebalanceForMembers (members : List NodeName) (replicationFactor : Nat) (saved published : Bool)
  | readMap
  | publish (i : Nat)

def LockedCall.saved : LockedCall → Bool
  | .failoverShard _ _ saved | .failoverShardAuto _ saved | .rebalanceShards _ saved _ | .rebalanceForMembers _ _ saved _ => saved
  | .mark _ _ | .readMap | .publish _ => true

namespace PublishedPlane

def commit (s : PublishedPlane) (map : ShardMap) (saved published : Bool) : PublishedPlane where
  plane := { s.plane with shardMap := map }
  stored := if saved then map else s.stored
  router := s.router
  underway := if published then s.underway ++ [map] else s.underway

/-- The quorum is checked before the lock is taken, and the call goes on only where it was there. -/
def checked (s : PublishedPlane) : ControlPlane := { s.plane with voters := [] }

def step (s : PublishedPlane) : LockedCall → PublishedPlane
  | .mark node alive => { s with plane := s.plane.mark node alive }
  | .failoverShard shard newOwner saved =>
    match s.checked.failoverShard shard newOwner with
    | (plane, .ok _) => s.commit plane.shardMap saved true
    | (_, .error _) => s
  | .failoverShardAuto shard saved =>
    match s.checked.failoverShardAuto shard with
    | (plane, .ok _) => s.commit plane.shardMap saved true
    | (_, .error _) => s
  | .rebalanceShards aliveNodes saved published =>
    match s.plane.rebalanceShards aliveNodes with
    | (_, some map) => s.commit map saved published
    | (_, none) => s
  | .rebalanceForMembers members replicationFactor saved published =>
    match s.plane.rebalanceForMembers members replicationFactor with
    | (_, some (map, _)) => s.commit map saved published
    | (plane, none) => { s with plane := plane }
  | .readMap => { s with underway := s.underway ++ [s.plane.shardMap] }
  | .publish i =>
    match s.underway[i]? with
    | some map => { s with router := map, underway := s.underway.eraseIdx i }
    | none => s

/-- **A change of an assignment** raises the version and is saved, and the router does not go
back. -/
structure Versioned (s : PublishedPlane) (call : LockedCall) : Prop where
  raised : (s.step call).plane.shardMap.assignments ≠ s.plane.shardMap.assignments →
    s.plane.shardMap.version < (s.step call).plane.shardMap.version
  stored : (s.step call).plane.shardMap.assignments ≠ s.plane.shardMap.assignments →
    call.saved = true →
    (s.step call).stored = (s.step call).plane.shardMap
  router : s.router.version ≤ (s.step call).router.version

/-- The version is not the last one, a rebalance whose placement leaves every shard with its owner
finds the replicas of the placement as well, and the clones arrive in the order in which they were
made. -/
def InOrder (s : PublishedPlane) : LockedCall → Prop
  | .mark _ _ | .readMap => True
  | .failoverShard _ _ _ | .failoverShardAuto _ _ | .rebalanceShards _ _ _ => s.plane.shardMap.version + 1 < 2 ^ 64
  | .rebalanceForMembers members replicationFactor _ _ => s.plane.shardMap.version + 1 < 2 ^ 64 ∧
    (members ≠ [] → s.plane.OwnersPlaced members replicationFactor →
      s.plane.AlreadyPlaced members replicationFactor)
  | .publish i => i = 0

/-- What a call in order does: it commits a map with the next version, leaves the map, reads it, or
publishes the first clone. -/
inductive Effect (s : PublishedPlane) (call : LockedCall) : PublishedPlane → Prop where
  | commit {map : ShardMap} (published : Bool) (h : map.version = s.plane.shardMap.version + 1) :
    Effect s call (s.commit map call.saved published)
  | keep {plane : ControlPlane} (hassignments : plane.shardMap.assignments = s.plane.shardMap.assignments)
    (hversion : plane.shardMap.version = s.plane.shardMap.version) : Effect s call { s with plane := plane }
  | read : Effect s call { s with underway := s.underway ++ [s.plane.shardMap] }
  | publish {map : ShardMap} {rest : List ShardMap} (h : s.underway = map :: rest) :
    Effect s call { s with router := map, underway := rest }

variable {s : PublishedPlane} {call : LockedCall}

theorem effect_step (h : s.InOrder call) : Effect s call (s.step call) := by
  cases call with
  | mark node alive => exact .keep rfl rfl
  | failoverShard shard newOwner saved =>
    rw [step, failoverShard, if_pos (show s.checked.quorumHealthy = true from rfl)]
    cases s.checked.shardMap.get shard with
    | none => exact .keep rfl rfl
    | some a => exact .commit true (Nat.mod_eq_of_lt h)
  | failoverShardAuto shard saved =>
    rw [step, failoverShardAuto, if_pos (show s.checked.quorumHealthy = true from rfl)]
    cases s.checked.shardMap.get shard with
    | none => exact .keep rfl rfl
    | some a =>
      dsimp only
      cases a.replicas.find? s.checked.holdsAlive with
      | none | some owner => exact .commit true (Nat.mod_eq_of_lt h)
  | rebalanceShards aliveNodes saved published =>
    rw [step, rebalanceShards]
    split_ifs
    · exact .keep rfl rfl
    · exact .commit published (Nat.mod_eq_of_lt h)
  | rebalanceForMembers members replicationFactor saved published =>
    obtain ⟨hversion, hplaced⟩ := h
    rw [step]
    by_cases hmembers : members = []
    · rw [rebalanceForMembers, if_pos hmembers]
      exact .keep rfl rfl
    by_cases howners : s.plane.OwnersPlaced members replicationFactor
    · rw [(hplaced hmembers howners).rebalanceForMembers]
      exact .keep rfl rfl
    · rw [rebalanceForMembers, if_neg hmembers, if_neg (howners ∘ movedShards_eq_nil_iff.mp)]
      exact .commit published (Nat.mod_eq_of_lt hversion)
  | readMap => exact .read
  | publish i =>
    cases h
    rw [step]
    cases hunderway : s.underway with
    | nil => exact .keep rfl rfl
    | cons map rest => exact .publish hunderway

/-- The versions rise from the router's map over the clones to the map itself. -/
structure Inv (s : PublishedPlane) : Prop where
  sorted : (s.router :: s.underway).Pairwise fun a b => a.version ≤ b.version
  le : ∀ map ∈ s.router :: s.underway, map.version ≤ s.plane.shardMap.version

theorem Inv.append (h : s.Inv) {map : ShardMap} (hmap : s.plane.shardMap.version ≤ map.version) :
    (s.router :: (s.underway ++ [map])).Pairwise fun a b => a.version ≤ b.version := by
  rw [← cons_append, pairwise_append]
  refine ⟨h.sorted, pairwise_singleton _ _, fun a ha b hb => ?_⟩
  rw [mem_singleton.mp hb]
  exact (h.le a ha).trans hmap

theorem Inv.le_append (h : s.Inv) {map : ShardMap} (hmap : s.plane.shardMap.version ≤ map.version) :
    ∀ clone ∈ s.router :: (s.underway ++ [map]), clone.version ≤ map.version := by
  intro clone hclone
  rw [← cons_append, mem_append, mem_singleton] at hclone
  obtain hold | rfl := hclone
  · exact (h.le clone hold).trans hmap
  · exact le_rfl

theorem Inv.step (h : s.Inv) (hcall : s.InOrder call) : s.Versioned call ∧ (s.step call).Inv := by
  have heffect := effect_step hcall
  suffices ∀ s', Effect s call s' → (s'.plane.shardMap.assignments ≠ s.plane.shardMap.assignments →
      s.plane.shardMap.version < s'.plane.shardMap.version ∧ (call.saved = true → s'.stored = s'.plane.shardMap)) ∧
      s.router.version ≤ s'.router.version ∧ s'.Inv by
    obtain ⟨hchange, hrouter, hinv⟩ := this _ heffect
    exact ⟨⟨fun hne => (hchange hne).1, fun hne => (hchange hne).2, hrouter⟩, hinv⟩
  intro s' heffect
  cases heffect with
  | @commit map published hmap =>
    have hle : s.plane.shardMap.version ≤ map.version := by omega
    refine ⟨fun _ => ⟨by show _ < map.version; omega, fun hsaved => if_pos hsaved⟩, le_rfl, ?_⟩
    cases published with
    | true => exact ⟨h.append hle, h.le_append hle⟩
    | false => exact ⟨h.sorted, fun clone hclone => (h.le clone hclone).trans hle⟩
  | keep hassignments hversion =>
    exact ⟨fun hne => absurd hassignments hne, le_rfl, h.sorted, fun map hmap => hversion ▸ h.le map hmap⟩
  | read => exact ⟨fun hne => absurd rfl hne, le_rfl, h.append le_rfl, h.le_append le_rfl⟩
  | @publish map rest hunderway =>
    have hsorted := h.sorted
    have hle := h.le
    rw [hunderway, pairwise_cons] at hsorted
    rw [hunderway] at hle
    exact ⟨fun hne => absurd rfl hne, hsorted.1 map mem_cons_self, hsorted.2,
      fun clone hclone => hle clone (mem_cons_of_mem _ hclone)⟩

/-- **The versions of the map** tell its changes apart, in every run of calls in order from a map
that has been published. -/
theorem versioned_of_along (plane : ControlPlane) (stored router : ShardMap)
    (hrouter : router.version ≤ plane.shardMap.version) {calls : List LockedCall}
    (h : Along step InOrder ⟨plane, stored, router, []⟩ calls) :
    Along step Versioned ⟨plane, stored, router, []⟩ calls := by
  have hinit : Inv ⟨plane, stored, router, []⟩ := by
    refine ⟨pairwise_singleton _ _, fun map hmap => ?_⟩
    rw [mem_singleton.mp hmap]
    exact hrouter
  exact @along_invariant _ _ step InOrder Inv Versioned (fun _ _ hinv hcall => hinv.step hcall) _ hinit calls h

def oneShard : PublishedPlane :=
  let map := ShardMap.newLocalWithNode 1 "a"
  ⟨⟨map, [], fun _ => none, ["a"], 1⟩, map, map, []⟩

/-- A failover, a rebalance on another member, and the clones arrive as they were made. -/
theorem versioned_failover_rebalance :
    Along step Versioned oneShard [.failoverShard 0 "b" true,
      .rebalanceForMembers ["c"] 1 true true, .publish 0, .publish 0] := by
  refine versioned_of_along _ _ _ le_rfl
    ⟨by show 1 + 1 < 2 ^ 64; decide, ⟨by show 2 + 1 < 2 ^ 64; decide, ?_⟩, rfl, rfl, trivial⟩
  intro _ howners
  have hmoved : "b" = "c" :=
    howners 0 ⟨⟨"c", []⟩, 1, true⟩ rfl ⟨⟨"b", []⟩, 2, true⟩ rfl
  exact absurd hmoved (by decide)

/-- A rebalance gives the shard a replica and moves no shard: the version stays and the store has
the old entry. And of two clones the second one arrives first, so that the router goes back from the
version 3 to 2. -/
theorem not_raised_not_stored_router_back :
    let rebalanced := oneShard.step (.rebalanceForMembers ["a", "b"] 2 true true)
    let failovers := [.failoverShard 0 "b" true, .failoverShard 0 "c" true, .publish 1]
    ((rebalanced.plane.shardMap.get 0).map fun a => a.replicas) = some ["b"] ∧
      rebalanced.plane.shardMap.version = 1 ∧
      (rebalanced.stored.get 0).map (fun a => a.replicas) = some [] ∧
      (run step oneShard failovers).router.version = 3 ∧
      (run step oneShard (failovers ++ [.publish 0])).router.version = 2 :=
  ⟨by decide +kernel, by decide +kernel, by decide +kernel, by decide +kernel, by decide +kernel⟩

end PublishedPlane
end Nexora.Control
