import Nexora.Control.ControlPlane
import Nexora.Control.Store

/-!
# The control state machine

`ControlStateMachine` applies committed commands to the store
(`nexora-zenoh/src/control_raft_sm.rs`). Puts and deletes go to a namespace, which may be in
quarantine; the commands on the shard map load it, change it and save it. Whether a store call fails
is an input.
-/

namespace Nexora.Control
open Lib Nexora.Cluster

/-! ### Commands and responses -/

namespace Namespace

def asStr : Namespace → String
  | .shardMap => "shardmap"
  | .mvDef => "mv:def"
  | .mvData => "mv:data"
  | .sqState => "sq:state"
  | .raftMeta => "raft:meta"
  | .domainDef => "domain:def"

def all : List Namespace := [.shardMap, .mvDef, .mvData, .sqState, .raftMeta, .domainDef]

def snapshotNamespaces : List Namespace := [.shardMap, .mvDef, .mvData, .sqState, .domainDef]

def debug : Namespace → String
  | .shardMap => "ShardMap"
  | .mvDef => "MvDef"
  | .mvData => "MvData"
  | .sqState => "SqState"
  | .raftMeta => "RaftMeta"
  | .domainDef => "DomainDef"

end Namespace

inductive ControlCommand (B : Type)
  | put (ns key : String) (value : B)
  | delete (ns key : String)
  | failoverShard (shardId : UInt32) (newOwner : NodeName)
  | failoverShardAuto (shardId : UInt32)
  | proposeShardMap (proposed : B)

def resolveNamespace (ns : String) : Option Namespace :=
  Namespace.all.find? fun candidate => candidate.asStr = ns

inductive ControlResponse
  | applied
  | failoverToken (shardId : UInt32) (epoch : OwnerEpoch)
  | failoverPromoted (shardId : UInt32) (epoch : OwnerEpoch)
  | failoverNoReplica (shardId : UInt32)
  | mapAccepted (version : Nat)
  | error (message : String)
  deriving DecidableEq

/-- What the store says of the read and of the write of a command, where they fail. -/
structure StoreFaults where
  read : Option String
  write : Option String

def StoreFaults.none : StoreFaults := ⟨.none, .none⟩

/-! ### The state machine -/

def mapKey : String := "current"

structure ControlStateMachine (B : Type) where
  store : ControlPlaneStore B
  quarantined : List Namespace
  haltThreshold : Nat

namespace ControlStateMachine
variable {B : Type} (json : Serde ShardMap B)

def loadShardMap (sm : ControlStateMachine B) (fault : Option String) : Except String ShardMap :=
  match fault with
  | some e => .error ("failed to read ShardMap: " ++ e)
  | none =>
    match sm.store.get .shardMap mapKey with
    | none => .error "ShardMap not found"
    | some bytes =>
      match json.fromSlice bytes with
      | none => .error "invalid ShardMap"
      | some map => .ok map

def saveShardMap (sm : ControlStateMachine B) (map : ShardMap) (fault : Option String) :
    Except String (ControlStateMachine B) :=
  match json.toVec map with
  | none => .error "ShardMap serialize"
  | some bytes =>
    match fault with
    | some e => .error ("ShardMap write: " ++ e)
    | none => .ok { sm with store := sm.store.put .shardMap mapKey bytes }

def changeShardMap (sm : ControlStateMachine B)
    (change : ShardMap → Except String (ShardMap × ControlResponse)) (faults : StoreFaults) :
    ControlStateMachine B × ControlResponse :=
  match sm.loadShardMap json faults.read with
  | .error message => (sm, .error message)
  | .ok map =>
    match change map with
    | .error message => (sm, .error message)
    | .ok (map, response) =>
      match sm.saveShardMap json map faults.write with
      | .error message => (sm, .error message)
      | .ok sm => (sm, response)

def failover (shardId : UInt32) (newOwner : NodeName) (map : ShardMap) :
    Except String (ShardMap × ControlResponse) :=
  match map.get shardId.toNat with
  | none => .error ("shard " ++ toString shardId ++ " not found")
  | some assignment =>
    .ok (assign map shardId.toNat { assignment with owner := newOwner, epoch := assignment.epoch + 1, writable := true },
      .failoverToken shardId (assignment.epoch + 1))

/-- The first replica is promoted, alive or not. -/
def failoverAuto (shardId : UInt32) (map : ShardMap) : Except String (ShardMap × ControlResponse) :=
  match map.get shardId.toNat with
  | none => .error ("shard " ++ toString shardId ++ " not found")
  | some assignment =>
    match assignment.replicas.head? with
    | some newOwner =>
      .ok (assign map shardId.toNat (promote assignment newOwner), .failoverPromoted shardId (assignment.epoch + 1))
    | none => .ok (assign map shardId.toNat { assignment with writable := false }, .failoverNoReplica shardId)

def acceptNewer (proposed : ShardMap) (current : ShardMap) :
    Except String (ShardMap × ControlResponse) :=
  if proposed.version ≤ current.version then
    .error ("stale proposal: version " ++ toString proposed.version ++ " <= current " ++ toString current.version)
  else .ok (proposed, .mapAccepted proposed.version)

def applyFailoverShard (sm : ControlStateMachine B) (shardId : UInt32) (newOwner : NodeName)
    (faults : StoreFaults) :
    ControlStateMachine B × ControlResponse :=
  sm.changeShardMap json (failover shardId newOwner) faults

def applyFailoverShardAuto (sm : ControlStateMachine B) (shardId : UInt32) (faults : StoreFaults) :
    ControlStateMachine B × ControlResponse := sm.changeShardMap json (failoverAuto shardId) faults

def applyProposeShardMap (sm : ControlStateMachine B) (proposed : B) (faults : StoreFaults) :
    ControlStateMachine B × ControlResponse :=
  match json.fromSlice proposed with
  | none => (sm, .error "invalid ShardMap")
  | some proposed => sm.changeShardMap json (acceptNewer proposed) faults

def quarantine (sm : ControlStateMachine B) (ns : Namespace) : ControlStateMachine B × Bool :=
  let quarantined := if ns ∈ sm.quarantined then sm.quarantined else ns :: sm.quarantined
  ({ sm with quarantined := quarantined }, sm.haltThreshold ≤ quarantined.length)

/-- A write to a namespace: skipped in quarantine, and the way into it when it fails. The error
halts the machine. -/
def writeNamespace (sm : ControlStateMachine B) (name : String)
    (write : Namespace → ControlPlaneStore B) (faults : StoreFaults) :
    ControlStateMachine B × Except String ControlResponse :=
  match resolveNamespace name with
  | none => (sm, .ok (.error ("unknown namespace: " ++ name)))
  | some ns =>
    if ns ∈ sm.quarantined then (sm, .ok (.error ("namespace " ++ ns.debug ++ " is quarantined")))
    else
      match faults.write with
      | none => ({ sm with store := write ns }, .ok .applied)
      | some e =>
        let (sm, halt) := sm.quarantine ns
        if halt then
          (sm, .error ("Quarantine threshold exceeded (" ++ toString sm.quarantined.length
            ++ " namespaces), halting state machine"))
        else (sm, .ok (.error e))

def applyCommand (sm : ControlStateMachine B) (command : ControlCommand B) (faults : StoreFaults) :
    ControlStateMachine B × Except String ControlResponse :=
  match command with
  | .put ns key value => sm.writeNamespace ns (fun ns => sm.store.put ns key value) faults
  | .delete ns key => sm.writeNamespace ns (fun ns => sm.store.delete ns key) faults
  | .failoverShard shardId newOwner =>
    let (sm, response) := sm.applyFailoverShard json shardId newOwner faults
    (sm, .ok response)
  | .failoverShardAuto shardId =>
    let (sm, response) := sm.applyFailoverShardAuto json shardId faults
    (sm, .ok response)
  | .proposeShardMap proposed =>
    let (sm, response) := sm.applyProposeShardMap json proposed faults
    (sm, .ok response)

/-! ### The map in the store -/

def storedMap (sm : ControlStateMachine B) : Option ShardMap :=
  (sm.store.get .shardMap mapKey).bind json.fromSlice

variable {json} {sm : ControlStateMachine B} {map : ShardMap}

theorem loadShardMap_of_storedMap (h : sm.storedMap json = some map) :
    sm.loadShardMap json none = .ok map := by
  obtain ⟨bytes, hbytes, hmap⟩ := Option.bind_eq_some_iff.mp h
  simp [loadShardMap, hbytes, hmap]

theorem storedMap_put (h : json.Keeps map) {bytes : B} (hbytes : json.toVec map = some bytes) :
    ({ sm with store := sm.store.put .shardMap mapKey bytes } : ControlStateMachine B).storedMap json = some map := by
  simp [storedMap, h.fromSlice hbytes]

theorem changeShardMap_cases (hjson : ∀ map, json.Keeps map) (h : sm.storedMap json = some map)
    (change : ShardMap → Except String (ShardMap × ControlResponse)) (faults : StoreFaults) :
    (∃ new response, faults.read = none ∧ faults.write = none ∧ change map = .ok (new, response) ∧
      (sm.changeShardMap json change faults).1.storedMap json = some new ∧
      (sm.changeShardMap json change faults).2 = response) ∨
    ((∀ new response, faults.read = none → faults.write = none → change map ≠ .ok (new, response)) ∧
      ∃ message, sm.changeShardMap json change faults = (sm, .error message)) := by
  obtain ⟨read, write⟩ := faults
  cases read with
  | some e =>
    refine Or.inr ⟨fun _ _ hread => absurd hread (by simp), ?_⟩
    exact ⟨_, rfl⟩
  | none =>
    have hload := loadShardMap_of_storedMap h
    cases hchange : change map with
    | error message =>
      refine Or.inr ⟨fun _ _ _ _ heq => absurd heq (by simp), message, ?_⟩
      simp [changeShardMap, hload, hchange]
    | ok changed =>
      obtain ⟨new, response⟩ := changed
      obtain ⟨bytes, hbytes, -⟩ := (hjson new).exists_toVec
      cases write with
      | some e =>
        refine Or.inr ⟨fun _ _ _ hwrite => absurd hwrite (by simp), "ShardMap write: " ++ e, ?_⟩
        simp [changeShardMap, hload, hchange, saveShardMap, hbytes]
      | none =>
        have hrun : sm.changeShardMap json change ⟨none, none⟩ =
            ({ sm with store := sm.store.put .shardMap mapKey bytes }, response) := by
          simp [changeShardMap, hload, hchange, saveShardMap, hbytes]
        refine Or.inl ⟨new, response, rfl, rfl, rfl, ?_, ?_⟩
        · rw [hrun]
          exact storedMap_put (hjson new) hbytes
        · rw [hrun]

end ControlStateMachine
end Nexora.Control
