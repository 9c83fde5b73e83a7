import Nexora.Graph.Shard
import Nexora.Wal.CodecRoundTrip

/-!
# Sleeping and waking in turn

A snapshot is stored under the greatest of the clock and the times of the journal, and the one with
the greatest time is loaded. An event with a time in the future puts a snapshot above all later ones
until the clock has caught up with it.
-/

namespace Nexora
open Lib Option

inductive Backend where
  | inMemory
  | rocksDb

def Backend.new : Backend → NodeStore
  | .inMemory => .inMemory ⟨[], []⟩
  | .rocksDb => .rocksDb ⟨.empty, .empty⟩

/-- One node of a shard: what the persistor holds of it, its task while it is awake, and its state
when it was last put to sleep. -/
structure SleepWakeState where
  store : NodeStore
  node : Option NodeTask
  before : Option NodeState

inductive SleepWakeStep where
  | commit (operations : List (MutationOp × Option EventTime)) (eventTime : Option EventTime)
  | sleep (now : EventTime)
  | wake (now : EventTime)

namespace SleepWakeState
variable (S : Serde) (codec : SnapshotCodec) (qid : NexoraId)

/-- A sleeping node takes no commits; a sleep that fails leaves the node awake, a wake that fails
leaves it asleep. -/
def step (s : SleepWakeState) : SleepWakeStep → SleepWakeState
  | .commit operations eventTime =>
      { s with node := s.node.map fun task => task.install (task.draft operations eventTime) }
  | .sleep now =>
      match s.node with
      | none => s
      | some task =>
        match sleepNode S codec s.store qid task now with
        | (store, .ok ()) => ⟨store, none, some task.state⟩
        | (store, .error _) => { s with store := store }
  | .wake now =>
      match s.node with
      | some _ => s
      | none =>
        match wakeNode S codec s.store qid now with
        | .ok task => { s with node := some task }
        | .error _ => s

def init (backend : Backend) : SleepWakeState := ⟨backend.new, none, none⟩

def Identity (s : SleepWakeState) : Prop :=
  s.node = none → ∀ state ∈ s.before, ∀ now,
    ∃ task, wakeNode S codec s.store qid now = .ok task ∧ task.state = state

/-- A sleep must store its snapshot under a time that no stored snapshot exceeds and that has a
successor, and the snapshot must be readable. -/
def StepOk (s : SleepWakeState) : SleepWakeStep → Prop
  | .sleep now => ∀ task ∈ s.node, (∀ row ∈ s.store.snapshotRows, row.1 ≤ task.snapshotState.time now) ∧
      task.snapshotState.time now < EventTime.MAX ∧ codec.ReadsBack task.state
  | _ => True

def Covered (store : NodeStore) (journal : NodeEvents) : Prop :=
  ∀ time ∈ store.eventTimes, (∃ row ∈ store.snapshotRows, time ≤ row.1) ∨ time ∈ journal.map TimedEvent.time

structure Inv (s : SleepWakeState) : Prop where
  covered : Covered s.store (s.node.elim [] NodeTask.journal)
  identity : s.Identity S codec qid

variable {S codec qid}
variable {s : SleepWakeState}

theorem step_commit_inv (h : s.Inv S codec qid)
    (operations : List (MutationOp × Option EventTime)) (eventTime : Option EventTime) :
    (s.step S codec qid (.commit operations eventTime)).Inv S codec qid := by
  cases hnode : s.node with
  | none =>
    have hstep : s.step S codec qid (.commit operations eventTime) = s := by
      simp only [step, hnode, map_none]
      rw [← hnode]
    rw [hstep]
    exact h
  | some task =>
    have hcovered := h.covered
    rw [hnode] at hcovered
    refine ⟨?_, fun hnone => ?_⟩
    · simp only [step, hnode, map_some]
      intro time htime
      refine (hcovered time htime).imp_right fun hjournal => ?_
      exact List.map_append ▸ List.mem_append_left _ hjournal
    · simp only [step, hnode, map_some] at hnone
      cases hnone

theorem step_wake_inv (h : s.Inv S codec qid) (now : EventTime) :
    (s.step S codec qid (.wake now)).Inv S codec qid := by
  cases hnode : s.node with
  | some task =>
    simp only [step, hnode]
    exact h
  | none =>
    have hcovered := h.covered
    rw [hnode] at hcovered
    cases hwake : wakeNode S codec s.store qid now with
    | error e =>
      simp only [step, hnode, hwake]
      exact h
    | ok task =>
      simp only [step, hnode, hwake]
      refine ⟨fun time htime => ?_, fun hnone => absurd hnone (some_ne_none task)⟩
      exact (hcovered time htime).imp_right fun hjournal => absurd hjournal List.not_mem_nil

theorem covered_of_persistJournal {store store' : NodeStore} {task : NodeTask}
    (hcovered : Covered store task.journal)
    (h : persistJournal S store qid task.snapshotState = .ok store') :
    Covered store' task.journal := by
  intro time htime
  rw [snapshotRows_of_persistJournal h]
  obtain htime | htime := eventTimes_of_persistJournal h time htime
  · exact hcovered time htime
  · exact Or.inr htime

theorem step_sleep_inv (h : s.Inv S codec qid) (now : EventTime)
    (hok : s.StepOk codec (.sleep now)) : (s.step S codec qid (.sleep now)).Inv S codec qid := by
  cases hnode : s.node with
  | none =>
    simp only [step, hnode]
    exact h
  | some task =>
    have hcovered := h.covered
    rw [hnode] at hcovered
    obtain ⟨hrows, hmax, hcodec⟩ := hok task hnode
    obtain ⟨st₁, st₂, hjournal, hstate, hsleep⟩ | ⟨st₁, e, hst, hsleep⟩ := sleepNode_cases S codec s.store qid task now
    · simp only [step, hnode, hsleep]
      have hcovered₁ := covered_of_persistJournal hcovered hjournal
      rw [← snapshotRows_of_persistJournal hjournal] at hrows
      have hevents : ∀ time ∈ st₁.eventTimes, time ≤ task.snapshotState.time now := by
        intro time htime
        obtain ⟨row, hrow, hle⟩ | htime := hcovered₁ time htime
        · exact le_trans hle (hrows row hrow)
        · exact task.snapshotState.le_time now time htime
      obtain ⟨data, -, hpersist⟩ := persistState_eq_ok hstate
      refine ⟨fun time htime => ?_, fun _ state hstate' wakeTime => ?_⟩
      · rw [NodeStore.eventTimes_of_persistSnapshot hpersist] at htime
        exact Or.inl ⟨_, NodeStore.mem_snapshotRows_of_persistSnapshot hpersist, hevents time htime⟩
      · obtain rfl := mem_some.mp hstate'
        exact ⟨_, wakeNode_of_persistState hstate hrows hevents hmax hcodec wakeTime, rfl⟩
    · simp only [step, hnode, hsleep]
      refine ⟨?_, fun hnone => absurd hnone (some_ne_none task)⟩
      change Covered st₁ task.journal
      obtain rfl | hjournal := hst
      · exact hcovered
      · exact covered_of_persistJournal hcovered hjournal

theorem step_inv {label : SleepWakeStep} (h : s.Inv S codec qid) (hok : s.StepOk codec label) :
    (s.step S codec qid label).Inv S codec qid := by
  cases label with
  | commit operations eventTime => exact step_commit_inv h operations eventTime
  | sleep now => exact step_sleep_inv h now hok
  | wake now => exact step_wake_inv h now

theorem init_inv (backend : Backend) : (init backend).Inv S codec qid where
  covered := by
    cases backend <;> exact fun time htime => absurd htime List.not_mem_nil
  identity := fun _ state hstate => absurd hstate (not_mem_none state)

variable (S codec qid)

/-- **Sleep and wake are the identity** in every run whose sleeps store their snapshots above the
earlier ones. -/
theorem identity_of_along (backend : Backend) {labels : List SleepWakeStep}
    (h : Along (step S codec qid) (StepOk codec) (init backend) labels) :
    (run (step S codec qid) (init backend) labels).Identity S codec qid :=
  (run_invariant (fun _ _ hinv hok => step_inv hinv hok) (init_inv backend) h).identity

end SleepWakeState

/-! ### Runs with two labels -/

def addLabel (label : Symbol) (time : Option EventTime) : SleepWakeStep :=
  .commit [(.addLabel label, time)] none

namespace SleepWakeState

def pastRun : List SleepWakeStep :=
  [.wake 10, addLabel "A" (some 5), .sleep 20, .wake 30, addLabel "B" none, .sleep 40]

/-- Labels with times that the clock has passed survive two sleeps. -/
theorem identity_pastRun :
    (run (step flagLibraries labelCodec ⟨[1]⟩) (init .rocksDb) pastRun).Identity flagLibraries labelCodec ⟨[1]⟩ ∧
      (run (step flagLibraries labelCodec ⟨[1]⟩) (init .rocksDb) pastRun).before =
        some (labelState {"B", "A"}) := by
  refine ⟨identity_of_along flagLibraries labelCodec ⟨[1]⟩ .rocksDb ?_, rfl⟩
  refine ⟨trivial, trivial, ?_, trivial, trivial, ?_, trivial⟩
  · intro task htask
    cases htask
    exact ⟨by decide, by decide, @labelCodec_readsBack {"A"} (by decide)⟩
  · intro task htask
    cases htask
    exact ⟨by decide, by decide, labelCodec_readsBack (by decide)⟩

/-- `A` gets a time in the future, so that the second snapshot is stored below the first one. -/
def futureRun : List SleepWakeStep :=
  [.wake 10, addLabel "A" (some 100), .sleep 20, .wake 30, addLabel "B" none, .sleep 40]

/-- The label that was added after the first sleep is gone after the second. -/
theorem not_identity_futureRun :
    (run (step flagLibraries labelCodec ⟨[1]⟩) (init .rocksDb) futureRun).before =
        some (labelState {"B", "A"}) ∧
      ¬ (run (step flagLibraries labelCodec ⟨[1]⟩) (init .rocksDb) futureRun).Identity flagLibraries labelCodec
        ⟨[1]⟩ := by
  refine ⟨rfl, fun h => ?_⟩
  obtain ⟨task, hwake, hstate⟩ := h rfl _ rfl 50
  have hlabels : task.state.labels = {"A"} := by
    cases hwake
    rfl
  rw [hstate] at hlabels
  exact absurd hlabels (by decide)

end SleepWakeState
end Nexora
