import Nexora.Graph.SleepWake

/-!
# Sleeping against concurrent writers

`sleep_node` talks to the task of its node through the channel of the writers: it asks for a copy of
the state, stores it, and sends `GoToSleep`. A request that is taken in between is acknowledged, but
what it changes is in no snapshot.
-/

namespace Nexora
open Lib List

inductive NodeCommand where
  | mutate (request : MutationRequest)
  | snapshotState
  | goToSleep

inductive SleepPhase where
  | notStarted
  | asked
  | captured (snap : NodeStateSnapshot)
  | journaled (snap : NodeStateSnapshot)
  | persisted (time : EventTime)
  | checkpointed
  | stopping
  | stopped
  | removed
  | failed (e : ShardError)

/-- The copy has been taken and the task has not stopped yet. -/
def SleepPhase.inWindow : SleepPhase → Bool
  | .captured _ => true
  | .journaled _ => true
  | .persisted _ => true
  | .checkpointed => true
  | .stopping => true
  | _ => false

/-- One node that is being put to sleep, its channel, and the events of all requests acknowledged so
far. -/
structure ChannelState where
  wal : WriteAheadLog
  store : NodeStore
  task : NodeTask
  running : Bool
  queue : List NodeCommand
  phase : SleepPhase
  acknowledged : NodeEvents

inductive ChannelStep where
  | send (request : MutationRequest)
  | receive
  | sleeper (now : EventTime)

namespace ChannelState
variable (S : Serde) (codec : SnapshotCodec) (cipher : Option Cipher) (qid : NexoraId)

/-- The task takes a command. With `GoToSleep` it stops, and the senders of what is still in the
channel get an error. -/
def handle (s : ChannelState) (rest : List NodeCommand) : NodeCommand → ChannelState
  | .mutate request =>
      { s with
        wal := (s.task.mutateRecord qid request).elim s.wal fun operation => (s.wal.append S cipher operation).1
        task := (s.task.handleMutate request).1
        queue := rest
        acknowledged := s.acknowledged ++ s.task.mutateEvents request }
  | .snapshotState => { s with queue := rest, phase := .captured s.task.snapshotState }
  | .goToSleep => { s with queue := [], running := false, phase := .stopped }

/-- `sleep_node` goes on, unless it waits for an answer of the task. -/
def advance (s : ChannelState) (now : EventTime) : ChannelState :=
  match s.phase with
  | .notStarted => { s with queue := s.queue ++ [.snapshotState], phase := .asked }
  | .captured snap =>
    match persistJournal S s.store qid snap with
    | .ok store => { s with store := store, phase := .journaled snap }
    | .error e => { s with phase := .failed e }
  | .journaled snap =>
    match persistState codec s.store qid snap now with
    | .ok store => { s with store := store, phase := .persisted (snap.time now) }
    | .error e => { s with phase := .failed e }
  | .persisted time =>
      { s with wal := (s.wal.append S cipher (.snapshotCheckpoint qid time)).1, phase := .checkpointed }
  | .checkpointed => { s with queue := s.queue ++ [.goToSleep], phase := .stopping }
  | .stopped => { s with wal := s.wal.truncate, phase := .removed }
  | _ => s

def step (s : ChannelState) : ChannelStep → ChannelState
  | .send request => if s.running then { s with queue := s.queue ++ [.mutate request] } else s
  | .receive =>
    match s.queue with
    | [] => s
    | command :: rest => if s.running then s.handle S cipher qid rest command else s
  | .sleeper now => s.advance S codec cipher qid now

def init (wal : WriteAheadLog) (store : NodeStore) (task : NodeTask) : ChannelState :=
  ⟨wal, store, task, true, [], .notStarted, []⟩

/-- After the sleep the node wakes, at any time, with everything that was acknowledged. -/
def Present (start : NodeState) (s : ChannelState) : Prop :=
  s.phase = .removed → ∀ now, ∃ woken, wakeNode S codec s.store qid now = .ok woken ∧
    woken.state = start.applyEvents s.acknowledged

/-- The task must not take a request between the copy and `GoToSleep`; the snapshot must be stored
under a time that no stored snapshot and no stored event exceeds and that has a successor, and must
be readable. -/
def StepOk (s : ChannelState) : ChannelStep → Prop
  | .receive => ∀ request rest, s.queue = .mutate request :: rest → s.phase.inWindow = false
  | .sleeper now => ∀ snap, s.phase = .journaled snap →
      (∀ row ∈ s.store.snapshotRows, row.1 ≤ snap.time now) ∧
      (∀ time ∈ s.store.eventTimes, time ≤ snap.time now) ∧
      snap.time now < EventTime.MAX ∧ codec.ReadsBack snap.state
  | .send _ => True

/-! ### The invariant -/

def OnlyRequests (queue : List NodeCommand) : Prop :=
  ∀ command ∈ queue, ∃ request, command = .mutate request

/-- The commands of `sleep_node` are in the channel while it waits for their answer, and only
then. -/
def QueueInv (queue : List NodeCommand) : SleepPhase → Prop
  | .asked => ∃ front back, queue = front ++ .snapshotState :: back ∧ OnlyRequests front ∧ OnlyRequests back
  | .stopping => ∃ front back, queue = front ++ .goToSleep :: back ∧ OnlyRequests front ∧ OnlyRequests back
  | _ => OnlyRequests queue

/-- Before the snapshot is stored the copy agrees with the task; from then on the node wakes as the
task is. -/
def StoreInv (store : NodeStore) (task : NodeTask) : SleepPhase → Prop
  | .notStarted | .asked | .failed _ => True
  | .captured snap | .journaled snap => snap = task.snapshotState
  | _ => WakesWith S codec qid store task.state

structure Inv (start : NodeState) (s : ChannelState) : Prop where
  sourced : s.task.state = start.applyEvents s.acknowledged
  queue : QueueInv s.queue s.phase
  store : StoreInv S codec qid s.store s.task s.phase
  stopped : s.phase = .stopped ∨ s.phase = .removed → s.running = false

variable {S codec cipher qid} {start : NodeState}
variable {s : ChannelState}

theorem Inv.present (h : s.Inv S codec qid start) : s.Present S codec qid start := by
  intro hphase now
  have hstore := h.store
  rw [hphase] at hstore
  rw [← h.sourced]
  exact hstore now

theorem OnlyRequests.snoc {queue : List NodeCommand} (h : OnlyRequests queue)
    (request : MutationRequest) :
    OnlyRequests (queue ++ [.mutate request]) := by
  intro command hcommand
  obtain hcommand | hcommand := mem_append.mp hcommand
  · exact h command hcommand
  · exact ⟨request, mem_singleton.mp hcommand⟩

theorem OnlyRequests.nil : OnlyRequests [] := fun _ h => absurd h not_mem_nil

variable {phase : SleepPhase}

theorem QueueInv.snoc {queue : List NodeCommand} (h : QueueInv queue phase)
    (request : MutationRequest) : QueueInv (queue ++ [.mutate request]) phase := by
  cases phase with
  | asked | stopping =>
    obtain ⟨front, back, rfl, hfront, hback⟩ := h
    exact ⟨front, back ++ [.mutate request], by simp, hfront, hback.snoc request⟩
  | _ => exact OnlyRequests.snoc h request

variable {rest : List NodeCommand} {store : NodeStore} {task : NodeTask}

theorem QueueInv.of_mutate {request : MutationRequest}
    (h : QueueInv (.mutate request :: rest) phase) : QueueInv rest phase := by
  have hwait : ∀ command, (∀ r, command ≠ NodeCommand.mutate r) →
      (∃ front back, NodeCommand.mutate request :: rest = front ++ command :: back ∧ OnlyRequests front ∧
        OnlyRequests back) →
      ∃ front back, rest = front ++ command :: back ∧ OnlyRequests front ∧ OnlyRequests back := by
    rintro command hcommand ⟨front, back, heq, hfront, hback⟩
    cases front with
    | nil =>
      rw [nil_append] at heq
      exact absurd (cons.inj heq).1.symm (hcommand request)
    | cons first front =>
      exact ⟨front, back, (cons.inj heq).2, fun c hc => hfront c (mem_cons_of_mem _ hc), hback⟩
  cases phase with
  | asked => exact hwait .snapshotState (fun r h => nomatch h) h
  | stopping => exact hwait .goToSleep (fun r h => nomatch h) h
  | _ => exact fun command hcommand => h command (mem_cons_of_mem _ hcommand)

theorem QueueInv.of_command {command : NodeCommand} (hcommand : ∀ r, command ≠ .mutate r)
    (h : QueueInv (command :: rest) phase) :
    (phase = .asked ∧ command = .snapshotState ∨ phase = .stopping ∧ command = .goToSleep) ∧ OnlyRequests rest := by
  have hwait : ∀ waited : NodeCommand,
      (∃ front back, command :: rest = front ++ waited :: back ∧ OnlyRequests front ∧ OnlyRequests back) →
        command = waited ∧ OnlyRequests rest := by
    rintro waited ⟨front, back, heq, hfront, hback⟩
    cases front with
    | nil =>
      obtain ⟨hsame, hrest⟩ := cons.inj heq
      exact ⟨hsame, hrest ▸ hback⟩
    | cons first front =>
      obtain ⟨r, hr⟩ := hfront first mem_cons_self
      exact absurd ((cons.inj heq).1.trans hr) (hcommand r)
  cases phase with
  | asked =>
    obtain ⟨hsame, hrest⟩ := hwait .snapshotState h
    exact ⟨Or.inl ⟨rfl, hsame⟩, hrest⟩
  | stopping =>
    obtain ⟨hsame, hrest⟩ := hwait .goToSleep h
    exact ⟨Or.inr ⟨rfl, hsame⟩, hrest⟩
  | _ =>
    obtain ⟨r, hr⟩ := h command mem_cons_self
    exact absurd hr (hcommand r)

theorem step_send_inv (h : s.Inv S codec qid start) (request : MutationRequest) :
    (s.step S codec cipher qid (.send request)).Inv S codec qid start := by
  simp only [step]
  split
  · exact ⟨h.sourced, h.queue.snoc request, h.store, h.stopped⟩
  · exact h

theorem StoreInv.mutate (h : StoreInv S codec qid store task phase)
    (hwindow : phase.inWindow = false) (hrunning : ¬ (phase = .stopped ∨ phase = .removed))
    (request : MutationRequest) :
    StoreInv S codec qid store (task.handleMutate request).1 phase := by
  cases phase with
  | notStarted | asked | failed => trivial
  | stopped => exact absurd (Or.inl rfl) hrunning
  | removed => exact absurd (Or.inr rfl) hrunning
  | _ => cases hwindow

theorem step_receive_inv (h : s.Inv S codec qid start) (hok : s.StepOk codec .receive) :
    (s.step S codec cipher qid .receive).Inv S codec qid start := by
  cases hqueue : s.queue with
  | nil => simpa only [step, hqueue] using h
  | cons command rest =>
    have hinv := h.queue
    rw [hqueue] at hinv
    by_cases hrunning : s.running = true
    · have hphase : ¬ (s.phase = .stopped ∨ s.phase = .removed) := by
        intro hphase
        rw [h.stopped hphase] at hrunning
        cases hrunning
      simp only [step, hqueue, if_pos hrunning]
      cases command with
      | mutate request =>
        refine ⟨?_, hinv.of_mutate, h.store.mutate (hok request rest hqueue) hphase request, h.stopped⟩
        simp only [handle]
        rw [(s.task.handleMutate_events request).1, NodeState.applyEvents_append, ← h.sourced]
      | snapshotState =>
        obtain ⟨⟨hasked, -⟩ | ⟨-, hcommand⟩, hrest⟩ := hinv.of_command (by intro r hr; cases hr)
        · refine ⟨h.sourced, hrest, rfl, fun hphase => ?_⟩
          obtain hphase | hphase := hphase <;> cases hphase
        · cases hcommand
      | goToSleep =>
        obtain ⟨⟨-, hcommand⟩ | ⟨hstopping, -⟩, hrest⟩ := hinv.of_command (by intro r hr; cases hr)
        · cases hcommand
        · have hstore := h.store
          rw [hstopping] at hstore
          exact ⟨h.sourced, OnlyRequests.nil, hstore, fun _ => rfl⟩
    · simpa only [step, hqueue, if_neg hrunning] using h

theorem step_sleeper_inv (h : s.Inv S codec qid start) (now : EventTime)
    (hok : s.StepOk codec (.sleeper now)) :
    (s.step S codec cipher qid (.sleeper now)).Inv S codec qid start := by
  have hqueue := h.queue
  have hstore := h.store
  simp only [step, advance]
  cases hphase : s.phase with
  | notStarted =>
    rw [hphase] at hqueue hstore
    exact ⟨h.sourced, ⟨s.queue, [], rfl, hqueue, OnlyRequests.nil⟩, hstore, fun hp => by obtain hp | hp := hp <;> cases hp⟩
  | captured snap =>
    rw [hphase] at hqueue hstore
    dsimp only
    cases hpersist : persistJournal S s.store qid snap with
    | error e => exact ⟨h.sourced, hqueue, trivial, fun hp => by obtain hp | hp := hp <;> cases hp⟩
    | ok store => exact ⟨h.sourced, hqueue, hstore, fun hp => by obtain hp | hp := hp <;> cases hp⟩
  | journaled snap =>
    rw [hphase] at hqueue hstore
    obtain ⟨hrows, hevents, hmax, hcodec⟩ := hok snap hphase
    dsimp only
    cases hpersist : persistState codec s.store qid snap now with
    | error e => exact ⟨h.sourced, hqueue, trivial, fun hp => by obtain hp | hp := hp <;> cases hp⟩
    | ok store =>
      have hwakes : WakesWith S codec qid store s.task.state := by
        intro wakeTime
        refine ⟨_, wakeNode_of_persistState hpersist hrows hevents hmax hcodec wakeTime, ?_⟩
        rw [show snap = s.task.snapshotState from hstore]
        rfl
      exact ⟨h.sourced, hqueue, hwakes, fun hp => by obtain hp | hp := hp <;> cases hp⟩
  | persisted time =>
    rw [hphase] at hqueue hstore
    exact ⟨h.sourced, hqueue, hstore, fun hp => by obtain hp | hp := hp <;> cases hp⟩
  | checkpointed =>
    rw [hphase] at hqueue hstore
    exact ⟨h.sourced, ⟨s.queue, [], rfl, hqueue, OnlyRequests.nil⟩, hstore, fun hp => by obtain hp | hp := hp <;> cases hp⟩
  | stopped =>
    rw [hphase] at hqueue hstore
    exact ⟨h.sourced, hqueue, hstore, fun _ => h.stopped (Or.inl hphase)⟩
  | _ => exact h

theorem step_inv {label : ChannelStep} (h : s.Inv S codec qid start) (hok : s.StepOk codec label) :
    (s.step S codec cipher qid label).Inv S codec qid start := by
  cases label with
  | send request => exact step_send_inv h request
  | receive => exact step_receive_inv h hok
  | sleeper now => exact step_sleeper_inv h now hok

theorem init_inv (wal : WriteAheadLog) : (init wal store task).Inv S codec qid task.state where
  sourced := rfl
  queue := OnlyRequests.nil
  store := trivial
  stopped := fun hphase => by obtain hphase | hphase := hphase <;> cases hphase

variable (S codec cipher qid)

/-- **Acknowledged requests survive the sleep** of their node in every run in which the task takes
none between the copy of its state and its end. -/
theorem present_of_along (wal : WriteAheadLog) {store : NodeStore} {task : NodeTask}
    {labels : List ChannelStep}
    (h : Along (step S codec cipher qid) (StepOk codec) (init wal store task) labels) :
    (run (step S codec cipher qid) (init wal store task) labels).Present S codec qid task.state :=
  (run_invariant (fun _ _ hinv hok => step_inv hinv hok) (init_inv wal) h).present

/-! ### Runs with one writer -/

def sampleInit : ChannelState :=
  init (.openWithOptions flagLibraries none .always [] 0) Backend.inMemory.new (.spawnWithFullState 10 (labelState ∅) none)

def sampleRequest : MutationRequest := ⟨1, [(.addLabel "A", none)], none, true⟩

def earlyRun : List ChannelStep :=
  [.send sampleRequest, .sleeper 20, .receive, .receive, .sleeper 20, .sleeper 20, .sleeper 20, .sleeper 20, .receive,
    .sleeper 20]

theorem present_earlyRun :
    let s := run (step flagLibraries labelCodec none ⟨[1]⟩) sampleInit earlyRun
    s.Present flagLibraries labelCodec ⟨[1]⟩ (labelState ∅) ∧ s.phase = .removed ∧
      s.acknowledged = [⟨.labelAdded "A", 11⟩] := by
  refine ⟨present_of_along flagLibraries labelCodec none ⟨[1]⟩ _ ?_, rfl, rfl⟩
  refine ⟨trivial, ?_, ?_, ?_, ?_, ?_, ?_, ?_, ?_, ?_, trivial⟩
  · exact fun snap hsnap => nomatch hsnap
  · exact fun request rest hqueue => rfl
  · exact fun request rest hqueue => rfl
  · exact fun snap hsnap => nomatch hsnap
  · intro snap hsnap
    cases hsnap
    refine ⟨by decide, fun time htime => ?_, by decide, @labelCodec_readsBack {"A"} (by decide)⟩
    obtain rfl : time = 11 := mem_singleton.mp htime
    decide
  · exact fun snap hsnap => nomatch hsnap
  · exact fun snap hsnap => nomatch hsnap
  · exact fun request rest hqueue => nomatch hqueue
  · exact fun snap hsnap => nomatch hsnap

def lateRun : List ChannelStep :=
  [.sleeper 20, .receive, .send sampleRequest, .receive, .sleeper 20, .sleeper 20, .sleeper 20, .sleeper 20, .receive,
    .sleeper 20]

/-- The node has slept, the label is acknowledged, and the node wakes without it. -/
theorem not_present_lateRun :
    let s := run (step flagLibraries labelCodec none ⟨[1]⟩) sampleInit lateRun
    s.phase = .removed ∧ s.acknowledged = [⟨.labelAdded "A", 11⟩] ∧
      ¬ s.Present flagLibraries labelCodec ⟨[1]⟩ (labelState ∅) := by
  refine ⟨rfl, rfl, fun h => ?_⟩
  obtain ⟨woken, hwake, hstate⟩ := h rfl 30
  have hlabels : woken.state.labels = ∅ := by
    cases hwake
    rfl
  rw [hstate] at hlabels
  exact absurd hlabels (by decide)

end ChannelState
end Nexora
