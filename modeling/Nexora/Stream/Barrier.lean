import Nexora.Lib.Run
import Mathlib.Data.Finset.Card
import Mathlib.Data.Finset.Range

/-!
# Barriers

A barrier opens an epoch, and the shards report that they have flushed it
(`nexora-barrier/src/lib.rs`). An epoch is committed when enough shards have reported, whatever
their numbers are. Once a later epoch is committed, it cannot be committed any more.
-/

namespace Nexora.EpochBarrier
open Lib Function Finset List

inductive BarrierKind where
  | checkpoint
  | lightCheckpoint
  | snapshot (name : String)

structure Barrier where
  epoch : Nat
  kind : BarrierKind

inductive ShardStatus where
  | pending
  | flushed (nodeCount eventCount : Nat)
  | failed (error : String)

inductive EpochError where
  | unknownEpoch (epoch : Nat)
  | alreadyCommitted (epoch : Nat)

structure EpochState where
  total : Nat
  completed : Finset Nat
  failed : Nat → Option String

/-- `commits` are the epochs that the subscribers have been notified of. -/
structure BarrierScheduler where
  currentEpoch : Nat
  epochStates : Nat → Option EpochState
  commits : List Nat
  totalShards : Nat
  committedEpoch : Nat

inductive Call where
  | createBarrier (kind : BarrierKind)
  | reportShard (epoch shard : Nat) (status : ShardStatus)

namespace BarrierScheduler

def new (totalShards : Nat) : BarrierScheduler := ⟨1, fun _ => none, [], totalShards, 0⟩

def createBarrier (b : BarrierScheduler) (kind : BarrierKind) : BarrierScheduler × Barrier :=
  ({ b with
      epochStates := update b.epochStates b.currentEpoch (some ⟨b.totalShards, ∅, fun _ => none⟩)
      currentEpoch := b.currentEpoch + 1 }, ⟨b.currentEpoch, kind⟩)

def commitEpoch (b : BarrierScheduler) (epoch : Nat) : BarrierScheduler × Except EpochError Unit :=
  if epoch ≤ b.committedEpoch then (b, .error (.alreadyCommitted epoch))
  else ({ b with committedEpoch := epoch, commits := b.commits ++ [epoch] }, .ok ())

def setState (b : BarrierScheduler) (epoch : Nat) (state : EpochState) : BarrierScheduler :=
  { b with epochStates := update b.epochStates epoch (some state) }

def reportShard (b : BarrierScheduler) (epoch shard : Nat) (status : ShardStatus) :
    BarrierScheduler × Except EpochError Unit :=
  match b.epochStates epoch with
  | none => (b, .error (.unknownEpoch epoch))
  | some state =>
    match status with
    | .flushed _ _ =>
      let state := { state with completed := insert shard state.completed }
      if state.total ≤ state.completed.card then (b.setState epoch state).commitEpoch epoch
        else (b.setState epoch state, .ok ())
    | .failed error => (b.setState epoch { state with failed := update state.failed shard (some error) }, .ok ())
    | .pending => (b, .ok ())

def step (b : BarrierScheduler) : Call → BarrierScheduler
  | .createBarrier kind => (b.createBarrier kind).1
  | .reportShard epoch shard status => (b.reportShard epoch shard status).1

/-! ### Flushes -/

/-- The epoch and the shard of a flush that is reported behind the barrier of its epoch. -/
def flush? (b : BarrierScheduler) : Call → Option (Nat × Nat)
  | .reportShard epoch shard (.flushed _ _) => (b.epochStates epoch).map fun _ => (epoch, shard)
  | _ => none

def flushes (b : BarrierScheduler) : List Call → List (Nat × Nat)
  | [] => []
  | call :: calls => (b.flush? call).toList ++ (b.step call).flushes calls

def Complete (total : Nat) (flushed : List (Nat × Nat)) (epoch : Nat) : Prop :=
  ∀ shard < total, (epoch, shard) ∈ flushed

/-- The flush is one of a shard that exists, and its epoch has not been overtaken. -/
def InOrder (b : BarrierScheduler) (call : Call) : Prop :=
  ∀ flush ∈ b.flush? call, flush.2 < b.totalShards ∧ (b.committedEpoch < flush.1 ∨ flush.1 ∈ b.commits)

variable {total : Nat} {flushed : List (Nat × Nat)} {b : BarrierScheduler} {epoch shard : Nat}

private theorem complete_append (e : Nat) : Complete total (flushed ++ [(epoch, shard)]) e ↔
    Complete total flushed e ∨ e = epoch ∧ Complete total (flushed ++ [(epoch, shard)]) epoch := by
  constructor
  · intro h
    by_cases he : e = epoch
    · exact .inr ⟨he, he ▸ h⟩
    · refine .inl fun s hs => ?_
      simpa [he] using h s hs
  · rintro (h | ⟨rfl, h⟩)
    · exact fun s hs => mem_append_left _ (h s hs)
    · exact h

private theorem complete_iff_card {completed : Finset Nat}
    (hmem : ∀ s, s ∈ completed ↔ (epoch, s) ∈ flushed) (hlt : ∀ flush ∈ flushed, flush.2 < total) :
    Complete total flushed epoch ↔ total ≤ completed.card := by
  have hsub : completed ⊆ Finset.range total := fun s hs => Finset.mem_range.mpr (hlt _ ((hmem s).mp hs))
  constructor
  · intro h
    calc total = (Finset.range total).card := (Finset.card_range total).symm
      _ ≤ completed.card := Finset.card_le_card fun s hs => (hmem s).mpr (h s (Finset.mem_range.mp hs))
  · intro h s hs
    rw [← hmem, eq_of_subset_of_card_le hsub (by rwa [card_range])]
    exact Finset.mem_range.mpr hs

/-! ### The invariant -/

structure Inv (total : Nat) (flushed : List (Nat × Nat)) (b : BarrierScheduler) : Prop where
  shards : b.totalShards = total
  fresh : ∀ epoch, b.currentEpoch ≤ epoch → b.epochStates epoch = none ∧ ∀ shard,
    (epoch, shard) ∉ flushed
  lt : ∀ flush ∈ flushed, flush.2 < total
  state : ∀ epoch state, b.epochStates epoch = some state →
    state.total = total ∧ ∀ shard, shard ∈ state.completed ↔ (epoch, shard) ∈ flushed
  complete : ∀ epoch, epoch ∈ b.commits ↔ Complete total flushed epoch
  nodup : b.commits.Nodup
  le : ∀ epoch ∈ b.commits, epoch ≤ b.committedEpoch
  last : b.committedEpoch = 0 ∨ b.committedEpoch ∈ b.commits

section
variable (h : Inv total flushed b)
include h

theorem Inv.createBarrier (kind : BarrierKind) : Inv total flushed (b.createBarrier kind).1 := by
  obtain ⟨hshards, hfresh, hlt, hstate, hcomplete, hnodup, hle, hlast⟩ := h
  refine ⟨hshards, ?_, hlt, ?_, hcomplete, hnodup, hle, hlast⟩ <;> dsimp only [BarrierScheduler.createBarrier] <;>
    grind [update_apply]

theorem Inv.failed {state : EpochState} (hold : b.epochStates epoch = some state)
    (failed : Nat → Option String) :
    Inv total flushed (b.setState epoch { state with failed }) := by
  obtain ⟨hshards, hfresh, hlt, hstate, hcomplete, hnodup, hle, hlast⟩ := h
  refine ⟨hshards, ?_, hlt, ?_, hcomplete, hnodup, hle, hlast⟩ <;> dsimp only [setState] <;>
    grind [update_apply]

theorem Inv.flush {state : EpochState} (hold : b.epochStates epoch = some state)
    (hshard : shard < total) (hlate : b.committedEpoch < epoch ∨ epoch ∈ b.commits)
    (nodes events : Nat) :
    Inv total (flushed ++ [(epoch, shard)]) (b.reportShard epoch shard (.flushed nodes events)).1 := by
  have hcommits := @complete_append total flushed epoch shard
  obtain ⟨hshards, hfresh, hlt, hstate, hcomplete, hnodup, hle, hlast⟩ := h
  have hlt' : ∀ flush ∈ flushed ++ [(epoch, shard)], flush.2 < total := by
    grind
  have hmem : ∀ s, s ∈ insert shard state.completed ↔ (epoch, s) ∈ flushed ++ [(epoch, shard)] := by
    grind
  have hcard := complete_iff_card hmem hlt'
  simp only [reportShard, hold, (hstate epoch state hold).1]
  split_ifs with henough
  · unfold commitEpoch
    split_ifs with hpassed
    · refine ⟨hshards, ?_, hlt', ?_, ?_, hnodup, hle, hlast⟩ <;> dsimp only [setState] at * <;> grind [update_apply]
    · refine ⟨hshards, ?_, hlt', ?_, ?_, ?_, ?_, ?_⟩ <;> dsimp only [setState] at * <;> grind [update_apply]
  · refine ⟨hshards, ?_, hlt', ?_, ?_, hnodup, hle, hlast⟩ <;> dsimp only [setState] at * <;> grind [update_apply]

theorem Inv.step {call : Call} (hcall : b.InOrder call) :
    Inv total (flushed ++ (b.flush? call).toList) (b.step call) := by
  cases call with
  | createBarrier kind => simpa [BarrierScheduler.step, flush?] using h.createBarrier kind
  | reportShard epoch shard status =>
    cases hold : b.epochStates epoch with
    | none => cases status <;> simpa [BarrierScheduler.step, reportShard, flush?, hold] using h
    | some state =>
      cases status with
      | pending => simpa [BarrierScheduler.step, reportShard, flush?, hold] using h
      | failed error => simpa [BarrierScheduler.step, reportShard, flush?, hold] using h.failed hold _
      | flushed nodes events =>
        obtain ⟨hshard, hlate⟩ := hcall (epoch, shard) (by simp [flush?, hold])
        simpa [BarrierScheduler.step, flush?, hold] using h.flush hold (h.shards ▸ hshard) hlate nodes events

theorem Inv.run {calls : List Call} (hcalls : Along BarrierScheduler.step InOrder b calls) :
    Inv total (flushed ++ b.flushes calls) (Lib.run BarrierScheduler.step b calls) := by
  induction calls generalizing b flushed with
  | nil => simpa [flushes] using h
  | cons call calls ih => simpa [flushes] using ih (h.step hcalls.1) hcalls.2

end

theorem committedEpoch_le_step (b : BarrierScheduler) (call : Call) :
    b.committedEpoch ≤ (b.step call).committedEpoch := by
  cases call with
  | createBarrier kind => exact le_rfl
  | reportShard epoch shard status => grind [step, reportShard, commitEpoch, setState]

theorem committedEpoch_le_run (b : BarrierScheduler) (calls : List Call) :
    b.committedEpoch ≤ (run step b calls).committedEpoch := by
  induction calls generalizing b with
  | nil => exact le_rfl
  | cons call calls ih => exact (committedEpoch_le_step b call).trans (ih _)

/-- Each call opens at most one epoch, so that a `u64` counts those of every run that is not longer
than it. -/
theorem currentEpoch_run_le (b : BarrierScheduler) (calls : List Call) :
    (run step b calls).currentEpoch ≤ b.currentEpoch + calls.length := by
  refine run_le_add_length currentEpoch (fun b call => ?_) b calls
  cases call with
  | createBarrier kind => exact le_rfl
  | reportShard epoch shard status => grind [step, reportShard, commitEpoch, setState]

/-- **The committed epoch.** It never falls. If every flush is one of a shard that exists, for an
epoch that has not been overtaken, then the committed epoch has been flushed by all shards, and
every epoch that all shards have flushed is notified once. -/
theorem committed_flushed_notified_once (total : Nat) (calls : List Call) :
    (∀ i j, i ≤ j → (run step (new total) (calls.take i)).committedEpoch ≤ (run step (new total) (calls.take j)).committedEpoch) ∧
      (0 < total → Along step InOrder (new total) calls →
        (∀ k, (run step (new total) (calls.take k)).committedEpoch = 0 ∨
          Complete total ((new total).flushes (calls.take k)) (run step (new total) (calls.take k)).committedEpoch) ∧
        ∀ epoch, Complete total ((new total).flushes calls) epoch →
          (run step (new total) calls).commits.count epoch = 1) := by
  refine ⟨fun i j hij => ?_, fun htotal hcalls => ?_⟩
  · rw [← take_append_drop i (calls.take j), take_take, min_eq_left hij, run_append]
    exact committedEpoch_le_run _ _
  · have hinit : Inv total [] (new total) := by
      refine ⟨rfl, ?_, ?_, ?_, ?_, ?_, ?_, ?_⟩ <;> simp [new, Complete]
      exact ⟨0, htotal⟩
    refine ⟨fun k => ?_, fun epoch hcomplete => ?_⟩
    · rw [← take_append_drop k calls, along_append] at hcalls
      have hinv := hinit.run hcalls.1
      exact hinv.last.imp_right (hinv.complete _).mp
    · have hinv := hinit.run hcalls
      exact count_eq_one_of_mem hinv.nodup ((hinv.complete epoch).mpr hcomplete)

/-- Two epochs of two shards, whose reports cross. One shard fails first, and one reports twice. -/
def crossed : List Call :=
  [.createBarrier .checkpoint, .reportShard 1 0 (.flushed 4 9), .createBarrier .lightCheckpoint,
    .reportShard 2 1 (.flushed 1 1), .reportShard 1 1 (.failed "disk"), .reportShard 1 1 (.flushed 3 7),
    .reportShard 1 1 (.flushed 3 7), .reportShard 2 0 (.flushed 1 1)]

theorem committed_flushed_notified_once_crossed :
    (run step (new 2) crossed).commits.count 1 = 1 ∧ (run step (new 2) crossed).commits.count 2 = 1 := by
  have halong : Along step InOrder (new 2) crossed := by
    simp [crossed, Along, InOrder, flush?, step, createBarrier, reportShard, new, setState, commitEpoch]
  have h := ((committed_flushed_notified_once 2 _).2 (by decide) halong).2
  refine ⟨h 1 ?_, h 2 ?_⟩
  all_goals
    simp [crossed, Complete, flushes, flush?, step, createBarrier, reportShard, new, setState, commitEpoch]
    omega

/-- A shard that does not exist commits an epoch in place of one that does, and an epoch that is
complete after its successor is never notified. -/
theorem committed_by_unknown_shard_and_overtaken :
    ((run step (new 2) [.createBarrier .checkpoint, .reportShard 1 0 (.flushed 2 3), .reportShard 1 7 (.flushed 0 0)]).committedEpoch,
      (run step (new 1) [.createBarrier .checkpoint, .createBarrier .checkpoint, .reportShard 2 0 (.flushed 2 3),
        .reportShard 1 0 (.flushed 2 3)]).commits) = (1, [2]) := by
  decide

end BarrierScheduler
end Nexora.EpochBarrier
