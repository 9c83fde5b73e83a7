import Nexora.Graph.Replay
import Mathlib.Data.List.MinMax

/-!
# Commits

`commit_operations` as a whole: the events that it emits, what it leaves behind when the log fails,
and what commits make of the properties, which are registers in which the newest write wins. The
tombstone is not among the copies that a commit works on.
-/

namespace Nexora
open Lib List MutationOp Option

inductive LogFailure where
  | append (error : String)
  | sync (error : String)

def LogFailure.message : LogFailure → String
  | .append error => "WAL write failed: " ++ error
  | .sync error => "WAL sync failed: " ++ error

namespace NodeTask

def commitOperations (task : NodeTask) (operations : List (MutationOp × Option EventTime))
    (fallback : Option EventTime) (failure : Option LogFailure) :
    NodeTask × Except String CommitReceipt :=
  let d := task.draft operations fallback
  match failure with
  | none => (task.install d, .ok (task.receipt d))
  | some failure => (task.drafted d, .error failure.message)

variable (task : NodeTask) (operations : List (MutationOp × Option EventTime))
    (fallback : Option EventTime)

/-- **A commit is sourced by its events**: they are what the journal gains, and `wake_node` folds
them into the state after the commit. -/
theorem commitOperations_sourced : (task.commitOperations operations fallback none).1.journal =
      task.journal ++ (task.draft operations fallback).events ∧
    (task.commitOperations operations fallback none).1.state =
      task.state.applyEvents (task.draft operations fallback).events :=
  ⟨rfl, (task.draft_sourced operations fallback).2.symm⟩

end NodeTask

/-! ### A log that fails -/

def MutationOp.setsTombstone : MutationOp → Option (Option TombstoneRecord)
  | .deleteNode tombstone => some (some tombstone)
  | _ => none

theorem MutationOp.setsTombstone_of_ne {operation : MutationOp}
    (h : ∀ tombstone, operation ≠ .deleteNode tombstone) :
    operation.setsTombstone = none := by
  cases operation with
  | deleteNode tombstone => exact absurd rfl (h tombstone)
  | _ => rfl

theorem MutationOp.tombstone_apply (operation : MutationOp) (s : NodeState) (time : EventTime) :
    (operation.apply s time).1.tombstone = operation.setsTombstone.getD s.tombstone := by
  cases operation with
  | edgePropertySet | deleteNode => rfl
  | _ =>
    rw [apply]
    split <;> rfl

namespace NodeTask
variable (task : NodeTask) (operations : List (MutationOp × Option EventTime))
    (fallback : Option EventTime)

theorem tombstone_draft : (task.draft operations fallback).next.tombstone =
    lastWrite (fun operation => operation.1.setsTombstone) task.state.tombstone operations :=
  (foldl_hom (fun d : CommitDraft => d.next.tombstone) fun d operation =>
    (operation.1.tombstone_apply d.next (d.opTime (task.nextEventTime + 1) fallback operation.2)).symm).symm

theorem state_drafted_eq : (task.drafted (task.draft operations fallback)).state = { task.state with
      tombstone :=
  lastWrite (fun operation => operation.1.setsTombstone) task.state.tombstone operations } := by
  rw [drafted, tombstone_draft]

/-- **A commit that fails** leaves the state and the journal as they were exactly when the last
tombstone among its operations, if there is one, is the one that the node has. -/
theorem commitOperations_failed_iff (failure : LogFailure) :
    (task.commitOperations operations fallback (some failure)).1.state = task.state ∧
        (task.commitOperations operations fallback (some failure)).1.journal = task.journal ↔
      lastWrite (fun operation => operation.1.setsTombstone) task.state.tombstone operations = task.state.tombstone := by
  change (task.drafted (task.draft operations fallback)).state = task.state ∧ task.journal = task.journal ↔ _
  rw [state_drafted_eq, and_iff_left rfl]
  constructor
  · exact fun h => congrArg NodeState.tombstone h
  · exact fun h => by rw [h]

/-- The node is deleted by a commit that returns an error. -/
theorem commitOperations_failed_deleteNode :
    let task := spawnWithFullState 10 .empty none
    let after := task.commitOperations [(.deleteNode ⟨5, none, none⟩, none)] none (some (.append "disk full"))
    task.state.tombstone = none ∧ after.1.state.tombstone = some ⟨5, none, none⟩ := ⟨rfl, rfl⟩

end NodeTask

/-! ### The newest write wins -/

def MutationOp.propertyWrite? : MutationOp → Option (Symbol × Option PropertyValue)
  | .setProperty key value => some (key, some value)
  | .removeProperty key => some (key, none)
  | _ => none

def MutationOp.propertyKey? (operation : MutationOp) : Option Symbol :=
  operation.propertyWrite?.map Prod.fst

theorem MutationOp.read_apply {operation : MutationOp} {key : Symbol} {value : Option PropertyValue}
    (h : operation.propertyWrite? = some (key, value)) (s : NodeState) (time : EventTime)
    (k : Symbol) :
    (operation.apply s time).1.read (.property k) =
      if k = key then lwwWrite value time (s.read (.property k)) else s.read (.property k) := by
  cases operation with
  | setProperty key written =>
    cases h
    rw [apply]
    split
    · next hwins => exact s.read_insertProperty hwins written k
    · next hwins => exact s.read_of_not_wins hwins (some written) k
  | removeProperty key =>
    cases h
    rw [apply]
    split
    · next hwins => exact s.read_removeProperty hwins k
    · next hwins => exact s.read_of_not_wins hwins none k
  | _ => cases h

def stamped (batch : List (MutationOp × Option EventTime) × Option EventTime) :
    List (MutationOp × Option EventTime) :=
  batch.1.map fun operation => (operation.1, operation.2.or batch.2)

def registerWrite (k : Symbol) :
    MutationOp × Option EventTime → Option (Option PropertyValue × EventTime)
  | (operation, some time) => operation.propertyWrite?.bind fun w => if k = w.1 then some (w.2, time) else none
  | (_, none) => none

theorem registerWrite_eq_some_iff (k : Symbol) (w : MutationOp × EventTime)
    (x : Option PropertyValue × EventTime) :
    registerWrite k (w.1, some w.2) = some x ↔ w.1.propertyWrite? = some (k, x.1) ∧ w.2 = x.2 := by
  obtain ⟨value, time⟩ := x
  rw [registerWrite]
  cases w.1.propertyWrite? with
  | none => simp
  | some written =>
    by_cases hk : k = written.1
    · simp [hk, Prod.ext_iff]
    · simp [hk, Prod.ext_iff, Ne.symm hk]

def IsWrite (operation : MutationOp × Option EventTime) : Prop :=
  operation.1.propertyWrite?.isSome ∧ operation.2.isSome

theorem read_step {d : CommitDraft} {fallback : Option EventTime}
    {operation : MutationOp × Option EventTime} (h : IsWrite (operation.1, operation.2.or fallback))
    (receiptTime : EventTime) (k : Symbol) :
    (d.step receiptTime fallback operation).next.read (.property k) =
      (registerWrite k (operation.1, operation.2.or fallback)).elim (d.next.read (.property k)) fun w =>
        lwwWrite w.1 w.2 (d.next.read (.property k)) := by
  obtain ⟨⟨key, value⟩, hwrite⟩ := isSome_iff_exists.mp h.1
  obtain ⟨time, htime⟩ : ∃ time, operation.2.or fallback = some time := isSome_iff_exists.mp h.2
  have hop : d.opTime receiptTime fallback operation.2 = time := by
    rw [CommitDraft.opTime, htime]
  change (operation.1.apply d.next (d.opTime receiptTime fallback operation.2)).1.read (.property k) = _
  rw [hop, read_apply hwrite, htime, registerWrite, hwrite, bind_some]
  split <;> rfl

namespace NodeTask

def commits (task : NodeTask)
    (batches : List (List (MutationOp × Option EventTime) × Option EventTime)) : NodeTask :=
  batches.foldl (fun task batch => (task.commitOperations batch.1 batch.2 none).1) task

theorem read_draft {task : NodeTask}
    {batch : List (MutationOp × Option EventTime) × Option EventTime}
    (h : ∀ operation ∈ stamped batch, IsWrite operation) (k : Symbol) :
    (task.draft batch.1 batch.2).next.read (.property k) =
      ((stamped batch).filterMap (registerWrite k)).foldl (fun r w => lwwWrite w.1 w.2 r)
      (task.state.read (.property k)) := by
  obtain ⟨operations, fallback⟩ := batch
  unfold draft
  generalize hd : (⟨task.state, [], 0, false, task.nextEventTime + 1⟩ : CommitDraft) = d
  have hstate : task.state = d.next := hd ▸ rfl
  rw [hstate]
  clear hd hstate
  induction operations generalizing d with
  | nil => rfl
  | cons operation operations ih =>
    obtain ⟨hfirst, hrest⟩ := forall_mem_cons.mp h
    rw [foldl_cons, ih hrest, read_step hfirst]
    cases hwrite : registerWrite k (operation.1, operation.2.or fallback) with
    | none | some => simp [stamped, hwrite]

variable {batches : List (List (MutationOp × Option EventTime) × Option EventTime)}

theorem read_commits {task : NodeTask}
    (h : ∀ operation ∈ batches.flatMap stamped, IsWrite operation) (k : Symbol) :
    (task.commits batches).state.read (.property k) =
      ((batches.flatMap stamped).filterMap (registerWrite k)).foldl (fun r w => lwwWrite w.1 w.2 r)
        (task.state.read (.property k)) := by
  induction batches generalizing task with
  | nil => rfl
  | cons batch batches ih =>
    rw [flatMap_cons] at h ⊢
    have hrest := @ih (task.install (task.draft batch.1 batch.2)) fun operation hop => h operation (mem_append_right _ hop)
    rw [filterMap_append, foldl_append, ← read_draft fun operation hop => h operation (mem_append_left _ hop)]
    exact hrest

def newest (writes : List (MutationOp × EventTime)) (key : Symbol) :
    Option (MutationOp × EventTime) :=
  (writes.filter fun w => w.1.propertyKey? = some key).argmax Prod.snd

/-- **Commits of property writes converge.** Writes and removals with event times, those of a
property at different times, are delivered in any order, in any batches and as often as may be: each
property becomes what the newest of its writes makes of it. -/
theorem read_commits_eq_newest (task : NodeTask) (writes : List (MutationOp × EventTime))
    (hwrites : ∀ w ∈ writes, w.1.propertyKey?.isSome = true)
    (hdistinct : writes.Pairwise fun a b => a.1.propertyKey? = b.1.propertyKey? → a.2 ≠ b.2)
    (hdelivered : ∀ operation, operation ∈ batches.flatMap stamped ↔ ∃ w ∈ writes, operation = (w.1, some w.2)) (key : Symbol) :
    (task.commits batches).state.read (.property key) =
      (newest writes key).elim (task.state.read (.property key)) fun w =>
        (w.1.apply task.state w.2).1.read (.property key) := by
  have hall : ∀ operation ∈ batches.flatMap stamped, IsWrite operation := by
    intro operation hop
    obtain ⟨w, hw, rfl⟩ := (hdelivered operation).mp hop
    exact ⟨by simpa [propertyKey?] using hwrites w hw, rfl⟩
  have hmem : ∀ x, x ∈ (batches.flatMap stamped).filterMap (registerWrite key) ↔
      ∃ w ∈ writes, registerWrite key (w.1, some w.2) = some x := by
    intro x
    rw [mem_filterMap]
    constructor
    · rintro ⟨operation, hop, hx⟩
      obtain ⟨w, hw, rfl⟩ := (hdelivered operation).mp hop
      exact ⟨w, hw, hx⟩
    · rintro ⟨w, hw, hx⟩
      exact ⟨_, (hdelivered _).mpr ⟨w, hw, rfl⟩, hx⟩
  rw [read_commits hall]
  cases hnewest : newest writes key with
  | none =>
    have hnone : (batches.flatMap stamped).filterMap (registerWrite key) = [] := by
      rw [eq_nil_iff_forall_not_mem]
      intro x hx
      obtain ⟨w, hw, hwx⟩ := (hmem x).mp hx
      have hfilter := argmax_eq_none.mp hnewest
      have hin : w ∈ writes.filter fun w => w.1.propertyKey? = some key :=
        mem_filter.mpr ⟨hw, by simp [propertyKey?, ((registerWrite_eq_some_iff key w x).mp hwx).1]⟩
      rw [hfilter] at hin
      cases hin
    rw [hnone]
    rfl
  | some w =>
    have hin := mem_filter.mp (argmax_mem hnewest)
    obtain ⟨⟨k, value⟩, hwrite, hk⟩ := map_eq_some_iff.mp (of_decide_eq_true hin.2)
    obtain rfl : k = key := hk
    have hw : registerWrite k (w.1, some w.2) = some (value, w.2) := (registerWrite_eq_some_iff k w _).mpr ⟨hwrite, rfl⟩
    -- Two writes of the property at one time are the same one.
    have hlast : ∀ x ∈ (batches.flatMap stamped).filterMap (registerWrite k), x.2 < w.2 ∨ x = (value, w.2) := by
      intro x hx
      obtain ⟨y, hy, hyx⟩ := (hmem x).mp hx
      obtain ⟨hywrite, hytime⟩ := (registerWrite_eq_some_iff k y x).mp hyx
      have hykey : y.1.propertyKey? = some k := by rw [propertyKey?, hywrite]; rfl
      have hle : y.2 ≤ w.2 := le_of_mem_argmax (mem_filter.mpr ⟨hy, by simp [hykey]⟩) hnewest
      obtain hlt | heq := lt_or_eq_of_le hle
      · exact Or.inl (hytime ▸ hlt)
      · by_cases hyw : y = w
        · subst hyw
          rw [hyx] at hw
          exact Or.inr (some.inj hw)
        · have : Std.Symm fun a b : MutationOp × EventTime => a.1.propertyKey? = b.1.propertyKey? → a.2 ≠ b.2 :=
            ⟨fun _ _ h hkeys heq => h hkeys.symm heq.symm⟩
          have hne := hdistinct.forall hy hin.1 hyw (hykey.trans (of_decide_eq_true hin.2).symm)
          exact absurd heq hne
    simp [foldl_lwwWrite ((hmem _).mpr ⟨w, hin.1, hw⟩) hlast, read_apply hwrite]

/-- A removal overtakes the write that it is newer than, and the write comes once more. -/
theorem read_commits_overtaken :
    ((spawnWithFullState 10 .empty none).commits [([(.removeProperty "k", some 7)], none),
      ([(.setProperty "k" (.boolean true), none)], some 5),
        ([(.setProperty "k" (.boolean true), some 5)], none)]).state.read
        (.property "k") = (none, some 7) :=
  read_commits_eq_newest (spawnWithFullState 10 .empty none)
    [(.setProperty "k" (.boolean true), 5), (.removeProperty "k", 7)] (by decide) (by decide)
    (fun operation => by simp [stamped, or_comm]) "k"

end NodeTask
end Nexora
