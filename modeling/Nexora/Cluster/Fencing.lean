import Nexora.Cluster.ShardMap
import Mathlib.Order.WithBot

/-!
# Fencing a deposed owner

A node keeps for each shard the highest epoch of an owner that it has seen, and turns away
replicated writes of a lower one (`nexora-zenoh/src/fencing.rs`). Whatever a call does, the mark
afterwards is the higher of the mark before and the epoch that the call brings.
-/

namespace Nexora.Cluster
open Lib List

structure ShardFence where
  epochs : Table Nat OwnerEpoch

inductive FenceCall where
  | observeMap (map : ShardMap)
  | admitWrite (shardId : Nat) (epoch : OwnerEpoch)

namespace ShardFence

def new : ShardFence := ⟨.empty⟩

def observe (epochs : Table Nat OwnerEpoch) (row : Nat × OwnedShard) : Table Nat OwnerEpoch :=
  let entry := (epochs.find? row.1).getD row.2.epoch
  epochs.put row.1 (if entry < row.2.epoch then row.2.epoch else entry)

variable (fence : ShardFence)

def observeMap (map : ShardMap) : ShardFence := ⟨map.assignments.rows.foldl observe fence.epochs⟩

def admitWrite (shardId : Nat) (epoch : OwnerEpoch) : ShardFence × Bool :=
  match fence.epochs.find? shardId with
  | some current => if epoch < current then (fence, false) else (⟨fence.epochs.put shardId epoch⟩, true)
  | none => (⟨fence.epochs.put shardId epoch⟩, true)

def current (shardId : Nat) : Option OwnerEpoch := fence.epochs.find? shardId

def step : FenceCall → ShardFence
  | .observeMap map => fence.observeMap map
  | .admitWrite shardId epoch => (fence.admitWrite shardId epoch).1

def mark (shardId : Nat) : WithBot OwnerEpoch := fence.current shardId

end ShardFence

namespace FenceCall

def brings : FenceCall → Nat → WithBot OwnerEpoch
  | .observeMap map, shard => (map.get shard).elim ⊥ fun assignment => (assignment.epoch : WithBot OwnerEpoch)
  | .admitWrite shardId epoch, shard => if shard = shardId then (epoch : WithBot OwnerEpoch) else ⊥

/-- The call is a map with the epoch for the shard, or a write with it that is admitted. -/
def Processed (fence : ShardFence) (call : FenceCall) (shard : Nat) (epoch : OwnerEpoch) : Prop :=
  match call with
  | .observeMap map => ∃ assignment, map.get shard = some assignment ∧ assignment.epoch = epoch
  | .admitWrite shardId written => shardId = shard ∧ written = epoch ∧ (fence.admitWrite shardId written).2 = true

theorem brings_of_processed {fence : ShardFence} {call : FenceCall} {shard : Nat}
    {epoch : OwnerEpoch} (h : call.Processed fence shard epoch) : call.brings shard = epoch := by
  cases call with
  | observeMap map =>
    obtain ⟨assignment, hget, rfl⟩ := h
    simp [brings, hget]
  | admitWrite shardId written =>
    obtain ⟨rfl, rfl, -⟩ := h
    exact if_pos rfl

end FenceCall

namespace ShardFence

/-! ### One call -/

theorem mark_mk_put (epochs : Table Nat OwnerEpoch) (shardId : Nat) (epoch : OwnerEpoch)
    (shard : Nat) :
    mark ⟨epochs.put shardId epoch⟩ shard = if shard = shardId then (epoch : WithBot OwnerEpoch)
      else mark ⟨epochs⟩ shard := by
  rw [mark, current, Table.find?_put]
  split <;> rfl

theorem mark_observe (epochs : Table Nat OwnerEpoch) (row : Nat × OwnedShard) (shard : Nat) :
    mark ⟨observe epochs row⟩ shard =
      mark ⟨epochs⟩ shard ⊔ if shard = row.1 then (row.2.epoch : WithBot OwnerEpoch) else ⊥ := by
  rw [observe, mark_mk_put]
  by_cases hshard : shard = row.1
  · subst hshard
    rw [if_pos rfl, if_pos rfl]
    cases hfind : epochs.find? row.1 with
    | none =>
      have hmark : mark ⟨epochs⟩ row.1 = ⊥ := hfind
      simp [hmark]
    | some entry =>
      have hmark : mark ⟨epochs⟩ row.1 = (entry : WithBot OwnerEpoch) := hfind
      rw [hmark, Option.getD_some, ← WithBot.coe_sup]
      congr 1
      split
      · next hlt => exact (sup_eq_right.mpr hlt.le).symm
      · next hle => exact (sup_eq_left.mpr (not_lt.mp hle)).symm
  · rw [if_neg hshard, if_neg hshard, sup_bot_eq]

theorem mark_foldl_observe (rows : List (Nat × OwnedShard)) (epochs : Table Nat OwnerEpoch)
    (shard : Nat) (hsorted : rows.Pairwise fun a b => a.1 < b.1) :
    mark ⟨rows.foldl observe epochs⟩ shard =
      mark ⟨epochs⟩ shard ⊔
        ((rows.find? fun row => row.1 = shard).map Prod.snd).elim ⊥ fun assignment =>
          (assignment.epoch : WithBot OwnerEpoch) := by
  induction rows generalizing epochs with
  | nil => exact (sup_bot_eq _).symm
  | cons row rows ih =>
    obtain ⟨hrow, hrows⟩ := pairwise_cons.mp hsorted
    rw [foldl_cons, ih _ hrows, mark_observe, sup_assoc]
    congr 1
    by_cases hshard : row.1 = shard
    · -- No other row is of this shard.
      have hnone : (rows.find? fun other => other.1 = shard) = none := by
        refine find?_eq_none.mpr fun other hother heq => ?_
        exact absurd (hshard.trans (of_decide_eq_true heq).symm) (hrow other hother).ne
      rw [if_pos hshard.symm, hnone, find?_cons_of_pos (by simpa using hshard)]
      exact sup_bot_eq _
    · rw [if_neg (Ne.symm hshard), bot_sup_eq, find?_cons_of_neg (by simpa using hshard)]

variable (fence : ShardFence)

theorem admitWrite_eq (shardId : Nat) (epoch : OwnerEpoch) : fence.admitWrite shardId epoch =
      if fence.mark shardId ≤ epoch then (⟨fence.epochs.put shardId epoch⟩, true) else (fence, false) := by
  cases hfind : fence.epochs.find? shardId with
  | none =>
    have hmark : fence.mark shardId = ⊥ := hfind
    simp [admitWrite, hfind, hmark, bot_le]
  | some current =>
    have hmark : fence.mark shardId = (current : WithBot OwnerEpoch) := hfind
    by_cases hlt : epoch < current
    · simp [admitWrite, hfind, hmark, WithBot.coe_le_coe, hlt]
    · simp [admitWrite, hfind, hmark, WithBot.coe_le_coe, hlt]

theorem snd_admitWrite_iff {fence : ShardFence} {shardId : Nat} {epoch : OwnerEpoch} :
    (fence.admitWrite shardId epoch).2 = true ↔ fence.mark shardId ≤ epoch := by
  rw [admitWrite_eq]
  split
  · next hle => exact iff_of_true rfl hle
  · next hnot => exact iff_of_false Bool.false_ne_true hnot

/-- **A call moves the mark up to the epoch it brings.** -/
theorem mark_step (call : FenceCall) (shard : Nat) :
    (fence.step call).mark shard = fence.mark shard ⊔ call.brings shard := by
  cases call with
  | observeMap map => exact mark_foldl_observe _ _ shard map.assignments.sorted
  | admitWrite shardId epoch =>
    rw [step, admitWrite_eq, FenceCall.brings]
    by_cases hshard : shard = shardId
    · subst hshard
      rw [if_pos rfl]
      split
      · next hle => rw [mark_mk_put, if_pos rfl, sup_eq_right.mpr hle]
      · next hnot => exact (sup_eq_left.mpr (not_le.mp hnot).le).symm
    · rw [if_neg hshard, sup_bot_eq]
      split
      · rw [mark_mk_put, if_neg hshard]
      · rfl

/-! ### Runs -/

theorem mark_le_mark_run (calls : List FenceCall) (shard : Nat) :
    fence.mark shard ≤ (run step fence calls).mark shard :=
  @run_preserves _ _ step (fun later => fence.mark shard ≤ later.mark shard)
    (fun later call hle => mark_step later call shard ▸ hle.trans le_sup_left) fence le_rfl calls

/-- **No mark goes back, and no owner comes back.** In every run the mark of a shard stays or grows;
and once a map or an admitted write with an epoch has been processed, no write with a lower one is
admitted for the shard. -/
theorem fenced_of_run (fence : ShardFence) (before : List FenceCall) (call : FenceCall)
    (after : List FenceCall) (shard : Nat) :
    (run step fence before).mark shard ≤ (run step fence (before ++ call :: after)).mark shard ∧
      ∀ epoch, call.Processed (run step fence before) shard epoch → ∀ lower < epoch,
        ((run step fence (before ++ call :: after)).admitWrite shard lower).2 = false := by
  rw [run_append]
  refine ⟨mark_le_mark_run _ _ shard, fun epoch hprocessed lower hlower => ?_⟩
  have hcall : (epoch : WithBot OwnerEpoch) ≤ (step (run step fence before) call).mark shard := by
    rw [mark_step, FenceCall.brings_of_processed hprocessed]
    exact le_sup_right
  have hlater := hcall.trans (mark_le_mark_run _ after shard)
  rw [Bool.eq_false_iff, ne_eq, snd_admitWrite_iff]
  exact fun hadmitted => absurd (WithBot.coe_le_coe.mp (hlater.trans hadmitted)) (not_le.mpr hlower)

/-- **Which writes are admitted.** Neither the order of the calls before nor how often each came
matters: a write is admitted if it is not below any epoch that a map or another write has
brought. -/
theorem admitWrite_run_iff (calls : List FenceCall) (shard : Nat) (epoch : OwnerEpoch) :
    ((run step fence calls).admitWrite shard epoch).2 = true ↔
      fence.mark shard ≤ epoch ∧ ∀ call ∈ calls, call.brings shard ≤ epoch := by
  rw [snd_admitWrite_iff]
  induction calls generalizing fence with
  | nil => simp [run]
  | cons call calls ih => rw [run_cons, ih, mark_step, sup_le_iff, and_assoc, forall_mem_cons]

end ShardFence
end Nexora.Cluster
