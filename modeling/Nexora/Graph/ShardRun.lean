import Nexora.Graph.StoreReplay
import Nexora.Wal.Crash

/-!
# Runs of a shard

The tasks of a shard share one write-ahead log. A commit appends its events, waits for stable
storage and answers with a receipt; a sleep stores one node, checkpoints it in the log and truncates
the log. Commits and the stages of one sleep interleave freely, and a crash may come after any step.
-/

namespace Nexora
open Lib

/-! ### The shard -/

/-- A commit that waits for the log: its locals in `commit_operations`, and the request. -/
structure PendingCommit where
  seq : Nat
  draft : CommitDraft
  receipt : CommitReceipt
  request : MutationRequest

inductive SleepStage where
  | captured (snap : NodeStateSnapshot)
  | journaled (snap : NodeStateSnapshot)
  | stored (time : EventTime)
  | flushed (time : EventTime)
  | checkpointed
  | stopped

/-- A shard with its log and its persistor. `unsynced` holds the earlier contents of the persistor
that a crash may bring back, back to its last flush, and `acknowledged` the events behind all
receipts. `sleep_node` and `wake_node` borrow the shard exclusively, so that at most one node is
going to sleep. -/
structure ShardState where
  wal : WriteAheadLog
  persistor : Persistor
  unsynced : List Persistor
  nodes : NexoraId → Option NodeTask
  pending : NexoraId → Option PendingCommit
  sleeping : Option (NexoraId × SleepStage)
  acknowledged : NexoraId → NodeEvents

inductive ShardStep where
  | wake (qid : NexoraId) (now : EventTime)
  | mutate (qid : NexoraId) (request : MutationRequest)
  | finish (qid : NexoraId) (flusherGone : Bool)
  | flusherTick
  | sleep (qid : NexoraId)
  | sleeper (now : EventTime)

namespace ShardState
variable (S : Serde) (codec : SnapshotCodec) (cipher : Option Cipher)

def idleTask (s : ShardState) (qid : NexoraId) : Option NodeTask :=
  match s.pending qid, s.sleeping with
  | some _, _ => none
  | none, some (x, .stopped) => if x = qid then none else s.nodes qid
  | none, _ => s.nodes qid

/-- `commit_operations` up to the append: the record is in the log and the task waits. -/
def beginCommit (s : ShardState) (qid : NexoraId) (task : NodeTask) (request : MutationRequest) :
    ShardState :=
  let d := task.draft request.operations request.eventTime
  let appended := s.wal.append S cipher (.nodeEvents qid d.events)
  { s with
    wal := appended.1.durableReceiver
    nodes := Function.update s.nodes qid (some (task.drafted d))
    pending := Function.update s.pending qid (some ⟨appended.2, d, task.receipt d, request⟩) }

/-- `commit_operations` behind the durability barrier: the copies become the state and the receipt
goes out. -/
def endCommit (s : ShardState) (qid : NexoraId) (c : PendingCommit) : ShardState :=
  { s with
    wal := { s.wal with group := s.wal.group.map (·.unsubscribe) }
    nodes := Function.update s.nodes qid ((s.nodes qid).map fun task =>
      (task.install c.draft).rememberReceipt c.request.requestId c.receipt)
    pending := Function.update s.pending qid none
    acknowledged := Function.update s.acknowledged qid (s.acknowledged qid ++ c.draft.events) }

def passes (s : ShardState) (c : PendingCommit) : Bool :=
  !c.request.awaitDurable || s.wal.group.isNone || c.seq ≤ s.wal.watermark

def writePersistor (s : ShardState) (p : Persistor) : ShardState :=
  { s with persistor := p, unsynced := s.persistor :: s.unsynced }

def advance (s : ShardState) (x : NexoraId) (now : EventTime) : SleepStage → ShardState
  | .captured snap =>
    match persistJournal S (s.persistor x) x snap with
    | .ok st => { s.writePersistor (Function.update s.persistor x st) with sleeping := some (x, .journaled snap) }
    | .error _ => { s with sleeping := none }
  | .journaled snap =>
    match persistState codec (s.persistor x) x snap now with
    | .ok st => { s.writePersistor (Function.update s.persistor x st) with sleeping := some (x, .stored (snap.time now)) }
    | .error _ => { s with sleeping := none }
  | .stored time => { s with unsynced := [], sleeping := some (x, .flushed time) }
  | .flushed time =>
      { s with wal := (s.wal.append S cipher (.snapshotCheckpoint x time)).1, sleeping := some (x, .checkpointed) }
  | .checkpointed => if (s.pending x).isSome then s else { s with sleeping := some (x, .stopped) }
  | .stopped => { s with nodes := Function.update s.nodes x none, wal := s.wal.truncate, sleeping := none }

def step (s : ShardState) : ShardStep → ShardState
  | .wake qid now =>
    match s.nodes qid, s.sleeping, wakeNode S codec (s.persistor qid) qid now with
    | none, none, .ok task => { s with nodes := Function.update s.nodes qid (some task) }
    | _, _, _ => s
  | .mutate qid request =>
    match s.idleTask qid with
    | none => s
    | some task =>
      match task.findReceipt request.requestId with
      | some entry => { s with nodes := Function.update s.nodes qid (some (task.refreshReceipt request.requestId entry)) }
      | none => s.beginCommit S cipher qid task request
  | .finish qid flusherGone =>
    match s.pending qid with
    | none => s
    | some c =>
      if s.passes c then s.endCommit qid c
      else if flusherGone then { s with wal := s.wal.sync }.endCommit qid c
      else s
  | .flusherTick => { s with wal := s.wal.flusherTick }
  | .sleep qid =>
    match s.sleeping, s.idleTask qid with
    | none, some task => { s with sleeping := some (qid, .captured task.snapshotState) }
    | _, _ => s
  | .sleeper now =>
    match s.sleeping with
    | none => s
    | some (x, stage) => s.advance S codec cipher x now stage

def init (policy : WalSyncPolicy) (fileGeneration : Nat) (persistor : Persistor) : ShardState :=
  ⟨.openWithOptions S cipher policy [] fileGeneration, persistor, [], fun _ => none, fun _ => none, none, fun _ => []⟩

/-! ### What is asked of a run -/

/-- After a crash at this point the log is opened and replayed and a node with receipts is woken.
However much of the unsynced part of the log and of the unflushed writes of the persistor is lost,
the node has every event behind a receipt, in their order, and perhaps those of the commit that was
under way. -/
def Durable (policy : WalSyncPolicy) (start : NexoraId → NodeState) (s : ShardState) : Prop :=
  ∀ (cut : Nat), ∀ survivor ∈ s.persistor :: s.unsynced, ∀ qid, s.acknowledged qid ≠ [] →
    ∀ now : EventTime, ∃ task,
      recoverNode S codec cipher policy (s.wal.file.take (max cut s.wal.synced))
        s.wal.fileGeneration survivor qid now = .ok task ∧
      (task.state = (start qid).applyEvents (s.acknowledged qid) ∨
        ∃ c, s.pending qid = some c ∧ task.state = (start qid).applyEvents (s.acknowledged qid ++ c.draft.events))

/-- A commit is safe when its node is not being put to sleep, its receipt waits for stable storage
under a number that is not published already, its record can be read back, and the persistor takes
its events behind the node's journal. -/
structure CommitOk (s : ShardState) (qid : NexoraId) (journal : NodeEvents)
    (request : MutationRequest)
    (events : NodeEvents) : Prop where
  awake : ∀ x stage, s.sleeping = some (x, stage) → x ≠ qid
  waits : s.wal.syncPolicy = .always ∨ (s.wal.group.isSome = true ∧ request.awaitDurable = true ∧
    (s.wal.watermark < s.wal.nextSeq ∨ s.wal.flushesInline S cipher (.nodeEvents qid events) = true))
  readable : Readable S cipher s.wal.fileGeneration ⟨s.wal.nextSeq, .nodeEvents qid events, s.wal.nextSeq⟩
  admitted : (s.persistor qid).Admits S qid journal events

/-- A stage of a sleep is safe when the snapshot is stored above everything else of its node and can
be read back, so can the checkpoint, and no other node has anything in the log that is truncated. -/
def SleepOk (s : ShardState) (x : NexoraId) (now : EventTime) : SleepStage → Prop
  | .journaled snap => (∀ row ∈ (s.persistor x).snapshotRows, row.1 ≤ snap.time now) ∧
      (∀ time ∈ (s.persistor x).eventTimes, time ≤ snap.time now) ∧ snap.time now < EventTime.MAX ∧
      codec.ReadsBack snap.state
  | .flushed time =>
      Readable S cipher s.wal.fileGeneration ⟨s.wal.nextSeq, .snapshotCheckpoint x time, s.wal.nextSeq⟩
  | .stopped => ∀ other, other ≠ x → s.pending other = none ∧ ∀ task, s.nodes other = some task → task.journal = []
  | _ => True

def StepOk (s : ShardState) : ShardStep → Prop
  | .mutate qid request => ∀ task, s.idleTask qid = some task → task.findReceipt request.requestId = none →
      s.CommitOk S cipher qid task.journal request (task.draft request.operations request.eventTime).events
  | .sleeper now => ∀ x stage, s.sleeping = some (x, stage) → s.SleepOk S codec cipher x now stage
  | _ => True

/-! ### What a step can do -/

section Cases
variable {S codec cipher} {s : ShardState} {qid : NexoraId}

theorem idleTask_eq_some {task : NodeTask} (h : s.idleTask qid = some task) :
    s.pending qid = none ∧ s.nodes qid = some task := by
  unfold idleTask at h
  split at h
  · cases h
  · next hpending _ =>
    split at h
    · cases h
    · exact ⟨hpending, h⟩
  · next hpending _ => exact ⟨hpending, h⟩

section
variable (s : ShardState) (qid : NexoraId)

theorem step_wake_cases (now : EventTime) : s.step S codec cipher (.wake qid now) = s ∨
      ∃ task, s.nodes qid = none ∧ s.sleeping = none ∧ wakeNode S codec (s.persistor qid) qid now = .ok task ∧
        s.step S codec cipher (.wake qid now) = { s with nodes := Function.update s.nodes qid (some task) } := by
  simp only [step]
  split
  · next task hnode hsleeping hwake => exact Or.inr ⟨task, hnode, hsleeping, hwake, rfl⟩
  · exact Or.inl rfl

/-- A commit ends only behind the barrier: it did not have to wait, its number is published, or it
has synced the log itself. -/
theorem step_finish_cases (flusherGone : Bool) :
    s.step S codec cipher (.finish qid flusherGone) = s ∨
      ∃ c, s.pending qid = some c ∧
        (s.passes c = true ∧ s.step S codec cipher (.finish qid flusherGone) = s.endCommit qid c ∨
          s.step S codec cipher (.finish qid flusherGone) = { s with wal := s.wal.sync }.endCommit qid c) := by
  simp only [step]
  cases hpending : s.pending qid with
  | none => exact Or.inl rfl
  | some c =>
    dsimp only
    split
    · next hpasses => exact Or.inr ⟨c, rfl, Or.inl ⟨hpasses, rfl⟩⟩
    · split
      · exact Or.inr ⟨c, rfl, Or.inr rfl⟩
      · exact Or.inl rfl

theorem step_sleep_cases :
    s.step S codec cipher (.sleep qid) = s ∨ ∃ task, s.sleeping = none ∧
      s.idleTask qid = some task ∧
        s.step S codec cipher (.sleep qid) = { s with sleeping := some (qid, .captured task.snapshotState) } := by
  simp only [step]
  split
  · next task hsleeping hidle => exact Or.inr ⟨task, hsleeping, hidle, rfl⟩
  · exact Or.inl rfl

end
end Cases
end ShardState
end Nexora
