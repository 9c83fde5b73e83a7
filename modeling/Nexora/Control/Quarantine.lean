import Nexora.Control.MapEpochs

/-!
# Namespaces in quarantine

Nothing should be written to a namespace with a failed write, and a node with too many such
namespaces should halt. The commands on the shard map write whether their namespace is in quarantine
or not, and a write of theirs that fails is only told to the client.
-/

namespace Nexora.Control
open Lib Nexora.Cluster

namespace ControlStateMachine
variable {B : Type} (json : Serde ShardMap B)

def changeTarget (sm : ControlStateMachine B)
    (change : ShardMap → Except String (ShardMap × ControlResponse)) (faults : StoreFaults) :
    Option Namespace :=
  match sm.loadShardMap json faults.read with
  | .error _ => none
  | .ok map =>
    match change map with
    | .error _ => none
    | .ok (map, _) => (json.toVec map).map fun _ => .shardMap

def writeTarget (sm : ControlStateMachine B) (command : ControlCommand B) (faults : StoreFaults) :
    Option Namespace :=
  match command with
  | .put name _ _ | .delete name _ => (resolveNamespace name).filter (· ∉ sm.quarantined)
  | .failoverShard shardId newOwner => sm.changeTarget json (failover shardId newOwner) faults
  | .failoverShardAuto shardId => sm.changeTarget json (failoverAuto shardId) faults
  | .proposeShardMap proposed => (json.fromSlice proposed).bind fun proposed => sm.changeTarget json (acceptNewer proposed) faults

def clear (sm : ControlStateMachine B) (ns : Namespace) : ControlStateMachine B :=
  { sm with quarantined := sm.quarantined.filter (· ≠ ns) }

end ControlStateMachine

def ControlCommand.onMap {B : Type} : ControlCommand B → Bool
  | .put _ _ _ | .delete _ _ => false
  | _ => true

/-- A state machine, and the namespaces with a failed write that have not been cleared since. -/
structure WatchedMachine (B : Type) where
  sm : ControlStateMachine B
  failed : Finset Namespace

inductive QuarantineEvent (B : Type)
  | apply (command : ControlCommand B) (faults : StoreFaults)
  | clear (ns : Namespace)

namespace WatchedMachine
variable {B : Type} (json : Serde ShardMap B)

def step (s : WatchedMachine B) : QuarantineEvent B → WatchedMachine B
  | .apply command faults =>
    { sm := (s.sm.applyCommand json command faults).1
      failed := if faults.write = none then s.failed else s.failed ∪ (s.sm.writeTarget json command faults).toFinset }
  | .clear ns => { sm := s.sm.clear ns, failed := s.failed.erase ns }

/-- What a command should do: leave the namespaces with a failed write alone, and end with an error
if its own failed write makes them too many. -/
def Isolates (s : WatchedMachine B) : QuarantineEvent B → Prop
  | .apply command faults =>
    (∀ ns ∈ s.failed, (s.sm.applyCommand json command faults).1.store.data ns = s.sm.store.data ns) ∧
      ∀ ns ∈ s.sm.writeTarget json command faults, faults.write ≠ none → s.sm.haltThreshold ≤ (insert ns s.failed).card →
        ∃ message, (s.sm.applyCommand json command faults).2 = .error message
  | .clear _ => True

/-- A command on the map writes it only out of quarantine, and its write does not fail. -/
def Contained (s : WatchedMachine B) : QuarantineEvent B → Prop
  | .apply command faults => command.onMap = true → ∀ ns ∈ s.sm.writeTarget json command faults,
    ns ∉ s.sm.quarantined ∧ faults.write = none
  | .clear _ => True

structure Tracks (s : WatchedMachine B) : Prop where
  mem : ∀ ns, ns ∈ s.sm.quarantined ↔ ns ∈ s.failed
  nodup : s.sm.quarantined.Nodup

end WatchedMachine

/-! ### What a command does -/

namespace ControlStateMachine
variable {B : Type} {json : Serde ShardMap B} {sm : ControlStateMachine B}

structure WritesOnly (sm sm' : ControlStateMachine B) (ns : Namespace) : Prop where
  data : ∀ other, other ≠ ns → sm'.store.data other = sm.store.data other
  quarantined : sm'.quarantined = sm.quarantined
  haltThreshold : sm'.haltThreshold = sm.haltThreshold

section
variable (sm : ControlStateMachine B) (ns : Namespace) (key : String)

theorem writesOnly_put (value : B) :
    sm.WritesOnly { sm with store := sm.store.put ns key value } ns :=
  ⟨fun _ hne => Function.update_of_ne hne _ _, rfl, rfl⟩

theorem writesOnly_delete : sm.WritesOnly { sm with store := sm.store.delete ns key } ns :=
  ⟨fun _ hne => Function.update_of_ne hne _ _, rfl, rfl⟩

end

theorem changeShardMap_of_target (change : ShardMap → Except String (ShardMap × ControlResponse))
    (faults : StoreFaults) :
    (sm.changeTarget json change faults = none ∨ faults.write ≠ none) ∧ (sm.changeShardMap json change faults).1 = sm ∨
      sm.changeTarget json change faults = some .shardMap ∧ faults.write = none ∧
        sm.WritesOnly (sm.changeShardMap json change faults).1 .shardMap := by
  unfold changeTarget changeShardMap
  cases sm.loadShardMap json faults.read with
  | error message => exact .inl ⟨.inl rfl, rfl⟩
  | ok map =>
    dsimp only
    cases change map with
    | error message => exact .inl ⟨.inl rfl, rfl⟩
    | ok changed =>
      dsimp only [saveShardMap]
      cases json.toVec changed.1 with
      | none => exact .inl ⟨.inl rfl, rfl⟩
      | some bytes =>
        cases hwrite : faults.write with
        | some e => exact .inl ⟨.inr (by simp), rfl⟩
        | none => exact .inr ⟨rfl, rfl, writesOnly_put sm .shardMap mapKey bytes⟩

variable {command : ControlCommand B}

theorem applyCommand_onMap (h : command.onMap = true) (faults : StoreFaults) :
    (sm.writeTarget json command faults = none ∨ faults.write ≠ none) ∧ (sm.applyCommand json command faults).1 = sm ∨
      sm.writeTarget json command faults = some .shardMap ∧ faults.write = none ∧
        sm.WritesOnly (sm.applyCommand json command faults).1 .shardMap := by
  cases command with
  | put | delete => cases h
  | failoverShard shardId newOwner | failoverShardAuto shardId => exact changeShardMap_of_target _ faults
  | proposeShardMap bytes =>
    simp only [writeTarget, applyCommand, applyProposeShardMap]
    cases json.fromSlice bytes with
    | none => exact .inl ⟨.inl rfl, rfl⟩
    | some proposed => exact changeShardMap_of_target _ faults

/-- Another command does nothing, writes to its namespace, or puts it into quarantine. -/
theorem writeNamespace_cases {name : String} {write : Namespace → ControlPlaneStore B}
    (hwrite : ∀ ns, sm.WritesOnly { sm with store := write ns } ns) (faults : StoreFaults) :
    (resolveNamespace name).filter (· ∉ sm.quarantined) = none ∧ (sm.writeNamespace name write faults).1 = sm ∨
      ∃ ns, (resolveNamespace name).filter (· ∉ sm.quarantined) = some ns ∧ ns ∉ sm.quarantined ∧
        (faults.write = none ∧ sm.WritesOnly (sm.writeNamespace name write faults).1 ns ∨
          faults.write ≠ none ∧ (sm.writeNamespace name write faults).1 = { sm with quarantined := ns :: sm.quarantined } ∧
            (sm.haltThreshold ≤ sm.quarantined.length + 1 → ∃ message, (sm.writeNamespace name write faults).2 = .error message)) := by
  unfold writeNamespace
  cases resolveNamespace name with
  | none => exact .inl ⟨rfl, rfl⟩
  | some ns =>
    by_cases hns : ns ∈ sm.quarantined
    · simp [hns]
    · refine .inr ⟨ns, by simp [hns], hns, ?_⟩
      simp only [hns, if_false]
      cases faults.write with
      | none => exact .inl ⟨rfl, hwrite ns⟩
      | some e =>
        refine .inr ⟨by simp, ?_, ?_⟩
        · simp only [quarantine, hns, if_false]
          split <;> rfl
        · intro hhalt
          simp [quarantine, hns, hhalt]

theorem applyCommand_not_onMap (h : command.onMap = false) (faults : StoreFaults) :
    sm.writeTarget json command faults = none ∧ (sm.applyCommand json command faults).1 = sm ∨
      ∃ ns, sm.writeTarget json command faults = some ns ∧ ns ∉ sm.quarantined ∧
        (faults.write = none ∧ sm.WritesOnly (sm.applyCommand json command faults).1 ns ∨
          faults.write ≠ none ∧ (sm.applyCommand json command faults).1 = { sm with quarantined := ns :: sm.quarantined } ∧
            (sm.haltThreshold ≤ sm.quarantined.length + 1 →
              ∃ message, (sm.applyCommand json command faults).2 = .error message)) := by
  cases command with
  | put name key value => exact writeNamespace_cases (fun ns => writesOnly_put sm ns key value) faults
  | delete name key => exact writeNamespace_cases (fun ns => writesOnly_delete sm ns key) faults
  | failoverShard | failoverShardAuto | proposeShardMap => cases h

end ControlStateMachine

/-! ### Runs -/

namespace WatchedMachine
variable {B : Type} {json : Serde ShardMap B} {s : WatchedMachine B}
variable {ns : Namespace} {command : ControlCommand B} {faults : StoreFaults}

theorem Tracks.card_insert (h : s.Tracks) (hns : ns ∉ s.sm.quarantined) :
    (insert ns s.failed).card = s.sm.quarantined.length + 1 := by
  have heq : s.failed = s.sm.quarantined.toFinset := by
    ext other
    simp [h.mem]
  rw [Finset.card_insert_of_notMem (mt (h.mem ns).mpr hns), heq, List.toFinset_card_of_nodup h.nodup]

theorem Tracks.of_kept (h : s.Tracks)
    (hnone : s.sm.writeTarget json command faults = none ∨ faults.write = none)
    (hquarantined : (s.sm.applyCommand json command faults).1.quarantined = s.sm.quarantined)
    (hdata : ∀ ns ∈ s.failed, (s.sm.applyCommand json command faults).1.store.data ns = s.sm.store.data ns) :
    (s.step json (.apply command faults)).Tracks ∧ s.Isolates json (.apply command faults) := by
  have hfailed : (s.step json (.apply command faults)).failed = s.failed := by
    rcases hnone with hnone | hnone
    · simp [step, hnone]
    · exact if_pos hnone
  refine ⟨⟨fun ns => ?_, hquarantined ▸ h.nodup⟩, hdata, fun ns hns hwrite => ?_⟩
  · rw [hfailed, ← h.mem]
    exact hquarantined ▸ Iff.rfl
  · rcases hnone with hnone | hnone
    · rw [hnone] at hns
      exact absurd hns (by simp)
    · exact absurd hnone hwrite

theorem Tracks.of_writesOnly (h : s.Tracks) (hwrite : faults.write = none)
    (hns : ns ∉ s.sm.quarantined)
    (hwrites : s.sm.WritesOnly (s.sm.applyCommand json command faults).1 ns) :
    (s.step json (.apply command faults)).Tracks ∧ s.Isolates json (.apply command faults) := by
  refine h.of_kept (.inr hwrite) hwrites.quarantined fun other hother => hwrites.data other ?_
  rintro rfl
  exact hns ((h.mem _).mpr hother)

theorem Tracks.step (h : s.Tracks) (event : QuarantineEvent B) (hevent : s.Contained json event) :
    (s.step json event).Tracks ∧ s.Isolates json event := by
  cases event with
  | clear ns =>
    refine ⟨⟨?_, h.nodup.filter _⟩, trivial⟩
    intro other
    simp only [WatchedMachine.step, ControlStateMachine.clear, List.mem_filter, Finset.mem_erase,
      h.mem, decide_eq_true_eq, ne_eq,
      and_comm]
  | apply command faults =>
    cases hmap : command.onMap with
    | true =>
      rcases @ControlStateMachine.applyCommand_onMap _ json s.sm _ hmap faults with ⟨-, hsame⟩ | ⟨htarget, hwrite, hwrites⟩
      · refine h.of_kept ?_ (by rw [hsame]) fun _ _ => by rw [hsame]
        cases htarget : s.sm.writeTarget json command faults with
        | none => exact .inl rfl
        | some ns => exact .inr (hevent hmap ns htarget).2
      · exact h.of_writesOnly hwrite (hevent hmap _ htarget).1 hwrites
    | false =>
      rcases @ControlStateMachine.applyCommand_not_onMap _ json s.sm _ hmap faults with
        ⟨hnone, hsame⟩ | ⟨ns, htarget, hns, ⟨hwrite, hwrites⟩ | ⟨hwrite, hquarantined, hhalt⟩⟩
      · exact h.of_kept (.inl hnone) (by rw [hsame]) fun _ _ => by rw [hsame]
      · exact h.of_writesOnly hwrite hns hwrites
      · refine ⟨⟨fun other => ?_, ?_⟩, fun other _ => by rw [hquarantined], fun other hother _ hcard => hhalt ?_⟩
        · simp [WatchedMachine.step, hquarantined, hwrite, htarget, h.mem]
        · simp only [WatchedMachine.step, hquarantined]
          exact List.nodup_cons.mpr ⟨hns, h.nodup⟩
        · rw [Option.mem_def, htarget, Option.some.injEq] at hother
          rw [← h.card_insert hns, hother]
          exact hcard

/-- **Isolation of diverged namespaces.** Every command of a run leaves the namespaces with a failed
write alone and ends with an error as soon as they are too many, as long as the commands on the map
write it out of quarantine and without a failure. -/
theorem isolates_of_contained {sm : ControlStateMachine B} (hstart : sm.quarantined = [])
    {events : List (QuarantineEvent B)} (h : Along (step json) (Contained json) ⟨sm, ∅⟩ events) :
    Along (step json) (Isolates json) ⟨sm, ∅⟩ events := by
  have htracks : Tracks (⟨sm, ∅⟩ : WatchedMachine B) := ⟨by simp [hstart], by simp [hstart]⟩
  generalize (⟨sm, ∅⟩ : WatchedMachine B) = s at h htracks
  induction events generalizing s with
  | nil => trivial
  | cons event events ih =>
    obtain ⟨hnext, hisolates⟩ := htracks.step event h.1
    exact ⟨hisolates, ih _ h.2 hnext⟩

open ControlStateMachine (plainMaps holding)

def localMap : ShardMap := .newLocalWithNode 1 "a"

theorem isolates_failed_puts : Along (step plainMaps) (Isolates plainMaps) ⟨holding localMap, ∅⟩
      [.apply (.failoverShard 0 "b") .none, .apply (.put "mv:def" "view" localMap) ⟨none, some "disk full"⟩,
        .apply (.put "mv:def" "view" localMap) .none, .apply (.delete "domain:def" "x") ⟨none, some "disk full"⟩] := by
  refine isolates_of_contained rfl ⟨fun _ ns _ => ⟨List.not_mem_nil, rfl⟩, ?_, ?_, ?_, trivial⟩
  all_goals exact fun hmap => nomatch hmap

/-- A put to the namespace of the map fails, and a failover writes to it nevertheless; when its own
write fails the machine goes on with two namespaces that have diverged. -/
theorem not_isolates_failover : ¬ Along (step plainMaps) (Isolates plainMaps) ⟨holding localMap, ∅⟩
      [.apply (.put "shardmap" "other" localMap) ⟨none, some "disk full"⟩, .apply (.failoverShard 0 "b") .none] ∧
    ¬ Along (step plainMaps) (Isolates plainMaps) ⟨holding localMap, ∅⟩
      [.apply (.put "mv:def" "view" localMap) ⟨none, some "disk full"⟩,
        .apply (.failoverShard 0 "b") ⟨none, some "disk full"⟩] := by
  constructor
  · rintro ⟨-, ⟨hdata, -⟩, -⟩
    have hrow := congrArg (fun rows => (rows.find? mapKey).map ShardMap.version) (hdata .shardMap (by decide))
    exact absurd hrow (by decide)
  · rintro ⟨-, ⟨-, hhalt⟩, -⟩
    obtain ⟨message, hmessage⟩ := hhalt .shardMap rfl (by decide) (by decide)
    exact nomatch hmessage

end WatchedMachine
end Nexora.Control
