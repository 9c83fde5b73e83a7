import Nexora.Control.StateMachine

/-!
# Epochs of the committed shard map

The map in the store should only move forward: no shard is lost, no epoch goes down, and a shard
gets another owner only with a larger epoch. A proposed map is taken if its version is newer,
whatever it says about the shards.
-/

namespace Nexora.Control
open Lib Nexora.Cluster Option Except List

/-- One map comes after another: each shard is still there, its epoch has not gone down, and it has
gone up if the owner is another one. -/
def Advances (old new : ShardMap) : Prop :=
  ∀ shard a, old.get shard = some a → ∃ b, new.get shard = some b ∧ a.epoch ≤ b.epoch ∧
    (a.owner ≠ b.owner → a.epoch < b.epoch)

theorem Advances.refl (map : ShardMap) : Advances map map :=
  fun _ a ha => ⟨a, ha, le_refl _, fun hne => absurd rfl hne⟩

theorem Advances.trans {old map new : ShardMap} (h : Advances old map) (h' : Advances map new) :
    Advances old new := by
  intro shard a ha
  obtain ⟨b, hb, hab, howner⟩ := h shard a ha
  obtain ⟨c, hc, hbc, howner'⟩ := h' shard b hb
  refine ⟨c, hc, hab.trans hbc, fun hne => ?_⟩
  by_cases heq : a.owner = b.owner
  · exact hab.trans_lt (howner' (heq ▸ hne))
  · exact (howner heq).trans_le hbc

theorem lt_add_one_iff (epoch : OwnerEpoch) : epoch < epoch + 1 ↔ epoch.val + 1 < 2 ^ 64 := by
  have hlt := epoch.isLt
  rw [Fin.lt_def, Fin.val_add]
  show epoch.val < (epoch.val + 1) % 2 ^ 64 ↔ _
  omega

theorem le_add_one_iff (epoch : OwnerEpoch) : epoch ≤ epoch + 1 ↔ epoch.val + 1 < 2 ^ 64 := by
  have hlt := epoch.isLt
  rw [Fin.le_def, Fin.val_add]
  show epoch.val ≤ (epoch.val + 1) % 2 ^ 64 ↔ _
  omega

theorem advances_assign_iff {map : ShardMap} {shard : Nat} {a b : OwnedShard}
    (h : map.get shard = some a) :
    Advances map (assign map shard b) ↔ a.epoch ≤ b.epoch ∧ (a.owner ≠ b.owner → a.epoch < b.epoch) := by
  constructor
  · intro hadvances
    obtain ⟨b', hb', hrest⟩ := hadvances shard a h
    rw [get_assign, if_pos rfl, some.injEq] at hb'
    exact hb' ▸ hrest
  · intro hab shard' a' ha'
    rw [get_assign]
    split
    · next heq =>
      rw [heq, h, some.injEq] at ha'
      subst ha'
      exact ⟨b, rfl, hab⟩
    · exact ⟨a', ha', le_refl _, fun hne => absurd rfl hne⟩

/-! ### Commands on the map -/

inductive ShardMapCommand (B : Type)
  | failoverShard (shardId : UInt32) (newOwner : NodeName)
  | failoverShardAuto (shardId : UInt32)
  | proposeShardMap (proposed : B)

def ShardMapCommand.toControl {B : Type} : ShardMapCommand B → ControlCommand B
  | .failoverShard shardId newOwner => .failoverShard shardId newOwner
  | .failoverShardAuto shardId => .failoverShardAuto shardId
  | .proposeShardMap proposed => .proposeShardMap proposed

def ShardMapCommand.change {B : Type} (json : Serde ShardMap B) (command : ShardMapCommand B)
    (map : ShardMap) :
    Except String (ShardMap × ControlResponse) :=
  match command with
  | .failoverShard shardId newOwner => ControlStateMachine.failover shardId newOwner map
  | .failoverShardAuto shardId => ControlStateMachine.failoverAuto shardId map
  | .proposeShardMap proposed =>
    match json.fromSlice proposed with
    | none => .error "invalid ShardMap"
    | some proposed => ControlStateMachine.acceptNewer proposed map

/-- The epoch of a shard that is failed over is not the last one, and a proposed map with a newer
version moves the map forward. -/
def ShardMapCommand.Forward {B : Type} (json : Serde ShardMap B) (command : ShardMapCommand B)
    (map : ShardMap) : Prop :=
  match command with
  | .failoverShard shardId _ => ∀ a, map.get shardId.toNat = some a → a.epoch.val + 1 < 2 ^ 64
  | .failoverShardAuto shardId => ∀ a, map.get shardId.toNat = some a → a.replicas ≠ [] → a.epoch.val + 1 < 2 ^ 64
  | .proposeShardMap bytes => ∀ proposed, json.fromSlice bytes = some proposed → map.version < proposed.version →
    Advances map proposed

structure MapCall (B : Type) where
  command : ShardMapCommand B
  faults : StoreFaults

namespace ControlStateMachine
variable {B : Type} (json : Serde ShardMap B)

def applyMapCall (sm : ControlStateMachine B) (call : MapCall B) : ControlStateMachine B :=
  (sm.applyCommand json call.command.toControl call.faults).1

def StoredAdvances (sm sm' : ControlStateMachine B) : Prop :=
  ∀ old, sm.storedMap json = some old → ∃ new, sm'.storedMap json = some new ∧ Advances old new

/-- A command that the store takes is one that moves the stored map forward. -/
def MovesForward (sm : ControlStateMachine B) (call : MapCall B) : Prop :=
  call.faults.read = none → call.faults.write = none → ∀ map, sm.storedMap json = some map →
    call.command.Forward json map

variable {json} {sm : ControlStateMachine B} {map : ShardMap}

theorem applyMapCall_cases (hjson : ∀ map, json.Keeps map) (h : sm.storedMap json = some map)
    (call : MapCall B) :
    (∃ new response, call.faults.read = none ∧ call.faults.write = none ∧ call.command.change json map = .ok (new, response) ∧
      (sm.applyMapCall json call).storedMap json = some new) ∨
    ((∀ new response, call.faults.read = none → call.faults.write = none →
        call.command.change json map ≠ .ok (new, response)) ∧ sm.applyMapCall json call = sm) := by
  have hcases := fun change => changeShardMap_cases hjson h change call.faults
  obtain ⟨command, faults⟩ := call
  -- Every command is a change of the map, but for a proposal that cannot be read.
  obtain ⟨change, hchange, hstep⟩ | ⟨herror, hstep⟩ :
      (∃ change : ShardMap → Except String (ShardMap × ControlResponse), change map = command.change json map ∧
        sm.applyMapCall json ⟨command, faults⟩ = (sm.changeShardMap json change faults).1) ∨
      ((∃ message, command.change json map = .error message) ∧ sm.applyMapCall json ⟨command, faults⟩ = sm) := by
    cases command with
    | failoverShard | failoverShardAuto => exact Or.inl ⟨_, rfl, rfl⟩
    | proposeShardMap bytes =>
      simp only [applyMapCall, ShardMapCommand.toControl, applyCommand, applyProposeShardMap, ShardMapCommand.change]
      cases json.fromSlice bytes with
      | none => exact Or.inr ⟨⟨_, rfl⟩, rfl⟩
      | some proposed => exact Or.inl ⟨_, rfl, rfl⟩
  · rw [hstep, ← hchange]
    obtain ⟨new, response, hread, hwrite, hnew, hstored, -⟩ | ⟨hnot, message, hfail⟩ := hcases change
    · exact Or.inl ⟨new, response, hread, hwrite, hnew, hstored⟩
    · exact Or.inr ⟨hnot, by rw [hfail]⟩
  · obtain ⟨message, hmessage⟩ := herror
    refine Or.inr ⟨fun _ _ _ _ heq => ?_, hstep⟩
    rw [hmessage] at heq
    cases heq

variable {command : ShardMapCommand B}

theorem advances_change_iff {new : ShardMap} {response : ControlResponse}
    (hnew : command.change json map = .ok (new, response)) :
    Advances map new ↔ command.Forward json map := by
  cases command with
  | failoverShard shardId newOwner =>
    cases hget : map.get shardId.toNat with
    | none =>
      simp only [ShardMapCommand.change, failover, hget] at hnew
      cases hnew
    | some a =>
      simp only [ShardMapCommand.change, failover, hget, ok.injEq, Prod.mk.injEq] at hnew
      rw [← hnew.1, advances_assign_iff hget, le_add_one_iff, lt_add_one_iff]
      simp only [ShardMapCommand.Forward, hget, some.injEq, forall_eq']
      exact and_iff_left_of_imp fun hlt _ => hlt
  | failoverShardAuto shardId =>
    cases hget : map.get shardId.toNat with
    | none =>
      simp only [ShardMapCommand.change, failoverAuto, hget] at hnew
      cases hnew
    | some a =>
      simp only [ShardMapCommand.Forward, hget, some.injEq, forall_eq']
      cases hfirst : a.replicas with
      | nil =>
        simp only [ShardMapCommand.change, failoverAuto, hget, hfirst, head?_nil, ok.injEq, Prod.mk.injEq] at hnew
        rw [← hnew.1, advances_assign_iff hget]
        simp
      | cons newOwner rest =>
        simp only [ShardMapCommand.change, failoverAuto, hget, hfirst, head?_cons, ok.injEq, Prod.mk.injEq] at hnew
        rw [← hnew.1, advances_assign_iff hget, promote, le_add_one_iff, lt_add_one_iff]
        simp only [ne_eq, reduceCtorEq, not_false_eq_true, true_imp_iff]
        exact and_iff_left_of_imp fun hlt _ => hlt
  | proposeShardMap bytes =>
    cases hproposed : json.fromSlice bytes with
    | none =>
      simp only [ShardMapCommand.change, hproposed] at hnew
      cases hnew
    | some proposed =>
      simp only [ShardMapCommand.change, hproposed, acceptNewer] at hnew
      split at hnew
      · cases hnew
      · next hnewer =>
        simp only [ok.injEq, Prod.mk.injEq] at hnew
        simp only [ShardMapCommand.Forward, hproposed, some.injEq, forall_eq']
        rw [← hnew.1]
        exact ⟨fun hadv _ => hadv, fun hadv => hadv (Nat.lt_of_not_le hnewer)⟩

theorem forward_of_no_change
    (hnot : ∀ new response, command.change json map ≠ .ok (new, response)) :
    command.Forward json map := by
  cases command with
  | failoverShard shardId newOwner =>
    intro a ha
    simp only [ShardMapCommand.change, failover, ha] at hnot
    exact absurd rfl (hnot _ _)
  | failoverShardAuto shardId =>
    intro a ha hne
    obtain ⟨newOwner, rest, hreplicas⟩ := exists_cons_of_ne_nil hne
    simp only [ShardMapCommand.change, failoverAuto, ha, hreplicas, head?_cons] at hnot
    exact absurd rfl (hnot _ _)
  | proposeShardMap bytes =>
    intro proposed hproposed hnewer
    simp only [ShardMapCommand.change, hproposed, acceptNewer, Nat.not_le.mpr hnewer, if_false] at hnot
    exact absurd rfl (hnot _ _)

theorem storedAdvances_applyMapCall_iff (hjson : ∀ map, json.Keeps map)
    (h : sm.storedMap json = some map) (call : MapCall B) :
    sm.StoredAdvances json (sm.applyMapCall json call) ↔ sm.MovesForward json call := by
  have hmoves : sm.MovesForward json call ↔
      (call.faults.read = none → call.faults.write = none → call.command.Forward json map) := by
    simp [MovesForward, h]
  rw [hmoves]
  obtain ⟨new, response, hread, hwrite, hnew, hstored⟩ | ⟨hnot, hsame⟩ :=
    applyMapCall_cases hjson h call
  · have hforward := advances_change_iff hnew
    constructor
    · intro hadv _ _
      obtain ⟨new', hnew', hadv'⟩ := hadv map h
      rw [hstored, some.injEq] at hnew'
      exact hforward.mp (hnew' ▸ hadv')
    · intro hadv old hold
      rw [h, some.injEq] at hold
      exact ⟨new, hstored, hold ▸ hforward.mpr (hadv hread hwrite)⟩
  · rw [hsame]
    refine iff_of_true (fun old hold => ⟨old, hold, Advances.refl old⟩) fun hread hwrite => ?_
    exact forward_of_no_change fun new response => hnot new response hread hwrite

theorem exists_storedMap_applyMapCall (hjson : ∀ map, json.Keeps map)
    (h : ∃ map, sm.storedMap json = some map) (call : MapCall B) :
    ∃ map, (sm.applyMapCall json call).storedMap json = some map := by
  obtain ⟨map, hmap⟩ := h
  obtain ⟨new, response, -, -, -, hstored⟩ | ⟨-, hsame⟩ := applyMapCall_cases hjson hmap call
  · exact ⟨new, hstored⟩
  · rw [hsame]
    exact ⟨map, hmap⟩

variable (json) in
def OnlyForward (sm : ControlStateMachine B) (calls : List (MapCall B)) : Prop :=
  ∀ i j, i ≤ j → (run (applyMapCall json) sm (calls.take i)).StoredAdvances json
    (run (applyMapCall json) sm (calls.take j))

/-- **The committed map only moves forward** exactly when each command that the store takes does. -/
theorem onlyForward_iff_along (hjson : ∀ map, json.Keeps map) (h : sm.storedMap json = some map)
    (calls : List (MapCall B)) :
    sm.OnlyForward json calls ↔ Along (applyMapCall json) (MovesForward json) sm calls := by
  refine @forall_take_le_iff_along _ _ _ _ (fun sm => ∃ map, sm.storedMap json = some map) _ ?_ ?_ ?_ ?_ sm ⟨map, h⟩ calls
  · exact fun sm old hold => ⟨old, hold, Advances.refl old⟩
  · intro r s t hrs hst old hold
    obtain ⟨mid, hmid, hadv⟩ := hrs old hold
    obtain ⟨new, hnew, hadv'⟩ := hst mid hmid
    exact ⟨new, hnew, hadv.trans hadv'⟩
  · exact fun sm call hsm => exists_storedMap_applyMapCall hjson hsm call
  · rintro sm call ⟨map, hmap⟩
    exact storedAdvances_applyMapCall_iff hjson hmap call

/-! A store that keeps the map itself. -/

def plainMaps : Serde ShardMap ShardMap := ⟨some, some⟩

def oneShard (version : Nat) (owner : NodeName) (epoch : OwnerEpoch) : ShardMap where
  version := version
  totalShards := 1
  assignments := Table.empty.put 0 { owner := owner, replicas := ["b"], epoch := epoch, writable := true }
  localNode := "a"

def holding (map : ShardMap) : ControlStateMachine ShardMap :=
  ⟨ControlPlaneStore.empty.put .shardMap mapKey map, [], 2⟩

theorem get_oneShard (version : Nat) (owner : NodeName) (epoch : OwnerEpoch) (shard : Nat) :
    (oneShard version owner epoch).get shard =
      if shard = 0 then some { owner := owner, replicas := ["b"], epoch := epoch, writable := true } else none :=
  Table.find?_put _ _ _ _

theorem onlyForward_failover_then_map : OnlyForward plainMaps (holding (oneShard 1 "a" 5))
      [⟨.failoverShardAuto 0, .none⟩, ⟨.proposeShardMap (oneShard 3 "a" 7), .none⟩] := by
  have hstored : (holding (oneShard 1 "a" 5)).storedMap plainMaps = some (oneShard 1 "a" 5) := rfl
  have hnext : ((holding (oneShard 1 "a" 5)).applyMapCall plainMaps ⟨.failoverShardAuto 0, .none⟩).storedMap plainMaps =
      some (assign (oneShard 1 "a" 5) 0 { owner := "b", replicas := [], epoch := 6, writable := true }) := rfl
  have hkeeps : ∀ map, plainMaps.Keeps map := fun _ => rfl
  refine (onlyForward_iff_along hkeeps hstored _).mpr ⟨?_, ?_, trivial⟩
  · intro _ _ map hmap a ha _
    cases hstored.symm.trans hmap
    rw [get_oneShard] at ha
    cases ha
    decide
  · intro _ _ map hmap proposed hproposed _
    cases hnext.symm.trans hmap
    cases hproposed
    intro shard a ha
    rw [get_assign, get_oneShard] at ha
    rw [get_oneShard]
    split at ha
    · next hshard =>
      cases ha
      exact ⟨_, if_pos hshard, by decide, fun _ => by decide⟩
    · simp at ha

/-- A proposed map with a newer version gives the shard to another owner at an older epoch. -/
theorem not_onlyForward_proposed :
    ¬ OnlyForward plainMaps (holding (oneShard 1 "a" 5)) [⟨.proposeShardMap (oneShard 2 "b" 1), .none⟩] := by
  intro hforward
  obtain ⟨new, hnew, hadv⟩ := hforward 0 1 (by decide) (oneShard 1 "a" 5) rfl
  cases hnew
  obtain ⟨b, hb, hle, -⟩ := hadv 0 _ rfl
  cases hb
  exact absurd hle (by decide)

end ControlStateMachine
end Nexora.Control
