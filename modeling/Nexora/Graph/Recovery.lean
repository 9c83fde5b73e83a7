import Nexora.Graph.Shard
import Nexora.Wal.TornTail

/-!
# Recovering a node from the log

After a crash `replay_wal` writes the events that no checkpoint covers to the persistor, and
`wake_node` folds those above the snapshot's time into the snapshot. The live task had folded in all
of them, whatever their times.
-/

namespace Nexora
open Lib List Function InMemoryStore WalOperation TimedEvent NodeState NodeStore

/-! ### Replaying the log -/

/-- What `replay_wal` writes to the persistor for one node. -/
def replayStore (S : Serde) (st : NodeStore) (qid : NexoraId) (events : NodeEvents) :
    Except PersistenceError NodeStore :=
  if events.isEmpty then .ok st else st.persistNodeChangeEvents S qid events

section Replay
variable {S : Serde} {cipher : Option Cipher} {records : List WalRecord}

theorem replayNode_of_replayStore {p : Persistor} {qid : NexoraId} {st : NodeStore}
    (h : replayStore S (p qid) qid (replayEvents (operationsOf records qid)) = .ok st)
    (w : WriteAheadLog) :
    ∃ w', replayNode S cipher records w p qid = .ok (w', update p qid st) := by
  unfold replayNode
  unfold replayStore at h
  simp only [Persistor.persistNodeChangeEvents]
  cases hevents : replayEvents (operationsOf records qid) with
  | nil =>
    rw [hevents] at h
    cases h
    exact ⟨w, by simp only [latestTime, map_nil, max?_nil, update_eq_self]⟩
  | cons e events =>
    rw [hevents] at h
    simp only [isEmpty_cons, Bool.false_eq_true, if_false] at h
    simp only [latestTime, map_cons, max?_cons', h]
    exact ⟨_, rfl⟩

theorem replayNodes_of_replayStore {qids : List NexoraId} (hnodup : qids.Nodup) {p : Persistor}
    (target : Persistor)
    (h : ∀ qid ∈ qids, replayStore S (p qid) qid (replayEvents (operationsOf records qid)) = .ok (target qid))
    (w : WriteAheadLog) :
    ∃ w', replayNodes S cipher records w p qids = .ok (w', fun qid => if qid ∈ qids then target qid else p qid) := by
  induction qids generalizing p w with
  | nil => exact ⟨w, by simp [replayNodes]⟩
  | cons first qids ih =>
    obtain ⟨hfirst, hrest⟩ := forall_mem_cons.mp h
    obtain ⟨hnotMem, hnodup⟩ := nodup_cons.mp hnodup
    obtain ⟨w₁, hnode⟩ : ∃ w', replayNode S cipher records w p first = .ok (w', update p first (target first)) :=
      replayNode_of_replayStore hfirst w
    have hother : ∀ qid ∈ qids, update p first (target first) qid = p qid := by
      intro qid hqid
      have hne : qid ≠ first := fun heq => hnotMem (heq ▸ hqid)
      rw [update_of_ne hne]
    obtain ⟨w₂, hnodes⟩ := ih hnodup (p := update p first (target first))
      (fun qid hqid => by rw [hother qid hqid]; exact hrest qid hqid) w₁
    refine ⟨w₂, ?_⟩
    simp only [replayNodes, hnode, hnodes]
    congr 2
    funext qid
    by_cases hqid : qid = first
    · subst hqid
      simp [hnotMem]
    · simp [hqid]

theorem map_operation_recordsFrom (seq : Nat) (ops : List WalOperation) :
    (recordsFrom seq ops).map WalRecord.operation = ops := by
  induction ops generalizing seq with
  | nil => rfl
  | cons op ops ih => exact congrArg (op :: ·) (ih (seq + 1))

theorem filterMap_recordsFrom (seq : Nat) (ops : List WalOperation) :
    ((recordsFrom seq ops).filterMap fun record => record.operation.nexoraId) = ops.filterMap nexoraId := by
  conv_rhs => rw [← map_operation_recordsFrom seq ops, filterMap_map]
  rfl

def uncovered (ops : List WalOperation) (qid : NexoraId) : NodeEvents :=
  replayEvents (ops.filter fun operation => operation.nexoraId = some qid)

theorem uncovered_of_not_mem {ops : List WalOperation} {qid : NexoraId}
    (h : qid ∉ ops.filterMap nexoraId) : uncovered ops qid = [] := by
  have hnil : (ops.filter fun operation => operation.nexoraId = some qid) = [] := by
    apply filter_eq_nil_iff.mpr
    intro operation hoperation hqid
    exact h (mem_filterMap.mpr ⟨operation, hoperation, of_decide_eq_true hqid⟩)
  rw [uncovered, hnil]
  rfl

section Appended
variable {qid : NexoraId}
variable {operation : WalOperation}

theorem uncovered_append_of_ne (h : operation.nexoraId ≠ some qid) (ops : List WalOperation) :
    uncovered (ops ++ [operation]) qid = uncovered ops qid := by
  rw [uncovered, filter_append, filter_singleton, decide_eq_false h]
  exact congrArg replayEvents (append_nil _)

theorem uncovered_append_of_eq (h : operation.nexoraId = some qid) (ops : List WalOperation) :
    uncovered (ops ++ [operation]) qid =
      replayEvents ((ops.filter fun operation => operation.nexoraId = some qid) ++ [operation]) := by
  rw [uncovered, filter_append, filter_singleton, decide_eq_true h]
  rfl

theorem uncovered_append_nodeEvents (ops : List WalOperation) (events : NodeEvents) :
    uncovered (ops ++ [.nodeEvents qid events]) qid = uncovered ops qid ++ events := by
  rw [uncovered_append_of_eq rfl, replayEvents, rtakeWhile_concat_pos _ _ _ rfl, flatMap_append,
    flatMap_singleton]
  rfl

theorem uncovered_append_checkpoint (ops : List WalOperation) (time : EventTime) :
    uncovered (ops ++ [.snapshotCheckpoint qid time]) qid = [] := by
  rw [uncovered_append_of_eq rfl, replayEvents, rtakeWhile_concat_neg _ _ _ (by simp [isCheckpoint])]
  rfl

end Appended
end Replay

/-! ### Recovering one node -/

/-- Open the log that a crash has left, replay it and wake the node. -/
def recoverNode (S : Serde) (codec : SnapshotCodec) (cipher : Option Cipher)
    (policy : WalSyncPolicy) (file : List UInt8) (fileGeneration : Nat) (p : Persistor)
    (qid : NexoraId) (now : EventTime) :
    Except ShardError NodeTask :=
  match replayWal S cipher (.openWithOptions S cipher policy file fileGeneration) p with
  | .error e => .error e
  | .ok (_, p, _) => wakeNode S codec (p qid) qid now

/-- **Recovery from readable records**, with something behind them that is no record: the node wakes
from what the persistor holds after it has been given the uncovered events of the log. -/
theorem recoverNode_frames {S : Serde} {cipher : Option Cipher} {fileGeneration : Nat}
    (codec : SnapshotCodec) (policy : WalSyncPolicy) {ops : List WalOperation}
    (hreadable : ∀ record ∈ recordsFrom 1 ops, Readable S cipher fileGeneration record)
    {tail : List UInt8} (htail : (walReader S cipher).Stops tail) {p target : Persistor}
    (htarget : ∀ qid, replayStore S (p qid) qid (uncovered ops qid) = .ok (target qid))
    (qid : NexoraId) (now : EventTime) :
    recoverNode S codec cipher policy ((recordsFrom 1 ops).flatMap (recordFrame S cipher fileGeneration) ++ tail)
      fileGeneration p qid now = wakeNode S codec (target qid) qid now := by
  have hreplay := replay_openWithOptions_frames policy ops hreadable htail
  have hstores : ∀ qid, replayStore S (p qid) qid (replayEvents (operationsOf (recordsFrom 1 ops) qid)) =
      .ok (target qid) := fun qid => by rw [operationsOf, map_operation_recordsFrom]; exact htarget qid
  set w := WriteAheadLog.openWithOptions S cipher policy
    ((recordsFrom 1 ops).flatMap (recordFrame S cipher fileGeneration) ++ tail) fileGeneration with hw
  set qids := ((recordsFrom 1 ops).filterMap fun record => record.operation.nexoraId).dedup with hqids
  obtain ⟨w', hnodes⟩ :
    ∃ w', replayNodes S cipher (recordsFrom 1 ops) (w.replay S cipher).2 p qids =
      .ok (w', fun qid => if qid ∈ qids then target qid else p qid) :=
    replayNodes_of_replayStore (nodup_dedup _) target (fun qid _ => hstores qid) _
  have hsame : (if qid ∈ qids then target qid else p qid) = target qid := by
    split
    · rfl
    · next hnotMem =>
      have hunmentioned : qid ∉ ops.filterMap nexoraId := by
        rw [hqids, mem_dedup, filterMap_recordsFrom] at hnotMem
        exact hnotMem
      have hstore := htarget qid
      rw [uncovered_of_not_mem hunmentioned] at hstore
      exact Except.ok.inj hstore
  unfold recoverNode replayWal
  simp [← hw, hreplay, ← hqids, hnodes, hsame]

theorem recoverNode_nil (S : Serde) (codec : SnapshotCodec) (cipher : Option Cipher)
    (policy : WalSyncPolicy) (fileGeneration : Nat) (p : Persistor) (qid : NexoraId)
    (now : EventTime) :
    recoverNode S codec cipher policy [] fileGeneration p qid now = wakeNode S codec (p qid) qid now := by
  have hnone : ∀ record ∈ recordsFrom 1 [], Readable S cipher fileGeneration record :=
    fun _ h => absurd h not_mem_nil
  exact recoverNode_frames codec policy hnone (walReader S cipher).stops_nil (p := p) (fun _ => rfl) qid now

/-! ### The live run -/

structure Batch where
  operations : List (MutationOp × Option EventTime)
  eventTime : Option EventTime

namespace NodeTask

def draftOf (task : NodeTask) (batch : Batch) : CommitDraft :=
  task.draft batch.operations batch.eventTime

def commit (task : NodeTask) (batch : Batch) : NodeTask := task.install (task.draftOf batch)

def commitAll (task : NodeTask) (batches : List Batch) : NodeTask := batches.foldl commit task

def emitted (task : NodeTask) : List Batch → List NodeEvents
  | [] => []
  | batch :: batches => (task.draftOf batch).events :: emitted (task.commit batch) batches

theorem emitted_sourced (task : NodeTask) (batches : List Batch) :
    task.state.Emits (task.emitted batches).flatten ∧
      task.state.applyEvents (task.emitted batches).flatten = (task.commitAll batches).state := by
  induction batches generalizing task with
  | nil => exact ⟨trivial, rfl⟩
  | cons batch batches ih =>
    obtain ⟨hemits, hnext⟩ := task.draft_sourced batch.operations batch.eventTime
    obtain ⟨hemits', hnext'⟩ := ih (task.commit batch)
    have hstate : task.state.applyEvents (task.draftOf batch).events = (task.commit batch).state := hnext
    simp only [emitted, flatten_cons]
    refine ⟨emits_append.mpr ⟨hemits, ?_⟩, ?_⟩
    · rw [hstate]
      exact hemits'
    · rw [applyEvents_append, hstate, hnext']
      rfl

end NodeTask

/-! ### Leaving out events -/

namespace NodeState

def TimesLe (s t : NodeState) : Prop :=
  ∀ key, ∀ time ∈ (s.read (.property key)).2, ∃ time' ∈ (t.read (.property key)).2, time ≤ time'

theorem TimesLe.refl (s : NodeState) : s.TimesLe s := fun _ time htime => ⟨time, htime, le_rfl⟩

theorem lwwWins_iff {stored : Option EventTime} {time : EventTime} :
    lwwWins stored time = true ↔ ∀ existing ∈ stored, existing ≤ time := by
  cases stored <;> simp [lwwWins]

variable {s t : NodeState}

theorem TimesLe.wins (h : s.TimesLe t) {key : Symbol} {time : EventTime}
    (hwins : t.wins key time = true) : s.wins key time = true := by
  rw [wins_eq, lwwWins_iff] at hwins ⊢
  intro existing hexisting
  obtain ⟨later, hlater, hle⟩ := h key existing hexisting
  exact le_trans hle (hwins later hlater)

variable {e : TimedEvent NodeChangeEvent}
section
variable (h : s.TimesLe t) (he : e.EmittedAt t)
include h he

theorem TimesLe.emittedAt : e.EmittedAt s := by
  obtain ⟨event, time⟩ := e
  cases event with
  | propertySet | propertyRemoved => exact h.wins he
  | _ => exact he

omit h he in
theorem times_applyEvent {s : NodeState} (he : e.EmittedAt s) (key : Symbol) :
    (s.applyEvent e).read (.property key) = s.read (.property key) ∧ e.propertyWrite key = none ∨
      ((s.applyEvent e).read (.property key)).2 = some e.time ∧ (e.propertyWrite key).isSome ∧
        s.wins key e.time = true := by
  rw [read_applyEvent s he.emitted, update_property]
  obtain ⟨event, time⟩ := e
  cases event with
  | propertySet k value | propertyRemoved k previousValue =>
    by_cases hk : key = k
    · subst hk
      simp only [propertyWrite, if_pos]
      refine Or.inr ⟨?_, rfl, he⟩
      rw [lwwWrite_of_wins (s.wins_eq key time ▸ he)]
    · simp only [propertyWrite, if_neg hk]
      exact Or.inl ⟨trivial, trivial⟩
  | _ => exact Or.inl ⟨rfl, rfl⟩

theorem TimesLe.applyEvent_right : s.TimesLe (t.applyEvent e) := by
  intro key time htime
  obtain ⟨later, hlater, hle⟩ := h key time htime
  obtain ⟨hsame, -⟩ | ⟨hset, -, hwins⟩ := times_applyEvent he key
  · rw [hsame]
    exact ⟨later, hlater, hle⟩
  · rw [wins_eq, lwwWins_iff] at hwins
    exact ⟨e.time, hset, le_trans hle (hwins later hlater)⟩

theorem TimesLe.applyEvent : (s.applyEvent e).TimesLe (t.applyEvent e) := by
  intro key time htime
  obtain ⟨hsame, hnone⟩ | ⟨hset, hsome, -⟩ := times_applyEvent (h.emittedAt he) key
  · obtain ⟨hsame', -⟩ | ⟨-, hsome', -⟩ := times_applyEvent he key
    · rw [hsame] at htime
      rw [hsame']
      exact h key time htime
    · rw [hnone] at hsome'
      cases hsome'
  · obtain ⟨-, hnone'⟩ | ⟨hset', -, -⟩ := times_applyEvent he key
    · rw [hnone'] at hsome
      cases hsome
    · rw [hset, ← hset'] at htime
      exact ⟨time, htime, le_rfl⟩

end

theorem Emits.filter {events : NodeEvents} (h : t.Emits events) (hle : s.TimesLe t)
    (keep : TimedEvent NodeChangeEvent → Bool) : s.Emits (events.filter keep) := by
  induction events generalizing s t with
  | nil => trivial
  | cons e events ih =>
    obtain ⟨he, hevents⟩ := h
    rw [filter_cons]
    split
    · exact ⟨hle.emittedAt he, ih hevents (hle.applyEvent he)⟩
    · exact ih hevents (hle.applyEvent_right he)

/-- **Leaving out events.** The rest of the events leads to the same state exactly when in every
part the last event that writes it and the last one of the rest that does leave the same. -/
theorem Emits.applyEvents_filter_iff {s : NodeState} {events : NodeEvents} (h : s.Emits events)
    (keep : TimedEvent NodeChangeEvent → Bool) :
    s.applyEvents (events.filter keep) = s.applyEvents events ↔
      ∀ part : NodePart, lastWrite (fun e => e.writes part) (s.read part) (events.filter keep) =
        lastWrite (fun e => e.writes part) (s.read part) events := by
  have hfilter := h.filter (TimesLe.refl s) keep
  constructor
  · intro heq part
    rw [← hfilter.read_applyEvents, ← h.read_applyEvents, heq]
  · intro hparts
    apply ext_read
    intro part
    rw [hfilter.read_applyEvents, h.read_applyEvents, hparts]

end NodeState

/-! ### Recovery against the live run -/

section Live
variable {S : Serde} {codec : SnapshotCodec} {qid : NexoraId} {m : InMemoryStore}
    {row : EventTime × List UInt8}
section
variable (hlatest : m.getLatestSnapshot EventTime.MAX = some row)
include hlatest

theorem wakeNode_inMemory {base : NodeState} (hbase : codec.deserialize row.2 = .ok base)
    (now : EventTime) :
    wakeNode S codec (.inMemory m) qid now = .ok (.spawnWithFullState now
      (base.applyEvents (m.journal.filter fun e => row.1.saturatingSucc ≤ e.time))
      (latestTime (m.journal.filter fun e => row.1.saturatingSucc ≤ e.time))) := by
  simp only [wakeNode, NodeStore.getLatestSnapshot, hlatest, recoverSnapshot, hbase, NodeStore.getNodeChangeEvents,
    InMemoryStore.getNodeChangeEvents, Option.map_some, Option.all_some, Option.all_none, Bool.and_true]

theorem deserialize_of_wakeNode_inMemory {now : EventTime} {task : NodeTask}
    (h : wakeNode S codec (.inMemory m) qid now = .ok task) :
    ∃ base, codec.deserialize row.2 = .ok base := by
  simp only [wakeNode, NodeStore.getLatestSnapshot, hlatest, recoverSnapshot] at h
  cases hbase : codec.deserialize row.2 with
  | error e =>
    simp only [hbase] at h
    cases h
  | ok base => exact ⟨base, rfl⟩

theorem wakeNode_inMemory_persist {wakeTime : EventTime} {before : NodeTask}
    (hbefore : wakeNode S codec (.inMemory m) qid wakeTime = .ok before) (events : NodeEvents)
    (now : EventTime) :
    ∃ task, wakeNode S codec (.inMemory (m.persistNodeChangeEvents events)) qid now = .ok task ∧
      task.state = before.state.applyEvents (events.filter fun e => row.1.saturatingSucc ≤ e.time) := by
  obtain ⟨base, hbase⟩ := deserialize_of_wakeNode_inMemory hlatest hbefore
  rw [wakeNode_inMemory hlatest hbase] at hbefore
  have hlatest' : (m.persistNodeChangeEvents events).getLatestSnapshot EventTime.MAX = some row :=
    hlatest
  refine ⟨_, wakeNode_inMemory hlatest' hbase now, ?_⟩
  rw [← Except.ok.inj hbefore]
  simp [NodeTask.spawnWithFullState, InMemoryStore.persistNodeChangeEvents, NodeState.applyEvents_append]

end
end Live

def NodeTask.logged (qid : NexoraId) (task : NodeTask) (batches : List Batch) : List WalOperation :=
  (task.emitted batches).map (.nodeEvents qid)

theorem replayEvents_logged (qid : NexoraId) (events : List NodeEvents) :
    replayEvents (events.map (.nodeEvents qid)) = events.flatten := by
  have hkept : (events.map (nodeEvents qid)).rtakeWhile (fun operation => !operation.isCheckpoint) =
      events.map (.nodeEvents qid) := by
    rw [rtakeWhile_eq_self_iff]
    intro operation hoperation
    obtain ⟨batch, -, rfl⟩ := mem_map.mp hoperation
    rfl
  rw [replayEvents, hkept, flatMap_map]
  exact flatMap_id'

section Recovered
variable {S : Serde} {codec : SnapshotCodec} {cipher : Option Cipher} {fileGeneration : Nat}
  {stores : NexoraId → InMemoryStore} {qid : NexoraId} {row : EventTime × List UInt8} {wakeTime : EventTime}
  {before : NodeTask} {batches : List Batch} {ops : List WalOperation}

theorem recoverNode_logged (policy : WalSyncPolicy)
    (hlatest : (stores qid).getLatestSnapshot EventTime.MAX = some row)
    (hbefore : wakeNode S codec (.inMemory (stores qid)) qid wakeTime = .ok before)
    (hops : (ops.filter fun operation => operation.nexoraId = some qid) = before.logged qid batches)
    (hreadable : ∀ record ∈ recordsFrom 1 ops, Readable S cipher fileGeneration record)
    (now : EventTime) :
    ∃ task, recoverNode S codec cipher policy (freshLog S cipher fileGeneration policy ops).file fileGeneration
        (fun qid => .inMemory (stores qid)) qid now = .ok task ∧
      task.state = before.state.applyEvents
        ((before.emitted batches).flatten.filter fun e => row.1.saturatingSucc ≤ e.time) := by
  have huncovered : uncovered ops qid = (before.emitted batches).flatten := by
    rw [uncovered, hops, NodeTask.logged, replayEvents_logged]
  have hstores : ∀ other, replayStore S (.inMemory (stores other)) other (uncovered ops other) =
      .ok (.inMemory ((stores other).persistNodeChangeEvents (uncovered ops other))) := by
    intro other
    unfold replayStore
    split
    · next hempty =>
      rw [isEmpty_iff.mp hempty, InMemoryStore.persistNodeChangeEvents, append_nil]
    · rfl
  have hrecover := recoverNode_frames codec policy hreadable (walReader S cipher).stops_nil hstores qid now
  rw [append_nil, ← freshLog_file S cipher fileGeneration policy, huncovered] at hrecover
  rw [hrecover]
  exact wakeNode_inMemory_persist hlatest hbefore _ now

end Recovered

/-- **Recovery and the live run.** A node with a snapshot is woken and commits batches, whose
records are in the log among those of other nodes. Recovering it gives the state of the live task
exactly when in every part of the node the last event that writes it and the last one above the
snapshot's time that does leave the same. -/
theorem recoverNode_eq_live_iff (S : Serde) (codec : SnapshotCodec) (cipher : Option Cipher)
    (policy : WalSyncPolicy) (fileGeneration : Nat) (stores : NexoraId → InMemoryStore)
    (qid : NexoraId) {row : EventTime × List UInt8}
    (hlatest : (stores qid).getLatestSnapshot EventTime.MAX = some row) {wakeTime : EventTime}
    {before : NodeTask}
    (hbefore : wakeNode S codec (.inMemory (stores qid)) qid wakeTime = .ok before)
    (batches : List Batch) {ops : List WalOperation}
    (hops : (ops.filter fun operation => operation.nexoraId = some qid) = before.logged qid batches)
    (hreadable : ∀ record ∈ recordsFrom 1 ops, Readable S cipher fileGeneration record)
    (now : EventTime) :
    (∃ task, recoverNode S codec cipher policy (freshLog S cipher fileGeneration policy ops).file fileGeneration
        (fun qid => .inMemory (stores qid)) qid now = .ok task ∧ task.state = (before.commitAll batches).state) ↔
      ∀ part : NodePart,
        lastWrite (fun e => e.writes part) (before.state.read part)
            ((before.emitted batches).flatten.filter fun e => row.1.saturatingSucc ≤ e.time) =
          lastWrite (fun e => e.writes part) (before.state.read part) (before.emitted batches).flatten := by
  obtain ⟨hemits, hlive⟩ := before.emitted_sourced batches
  obtain ⟨recovered, hrecover, hstate⟩ := recoverNode_logged policy hlatest hbefore hops hreadable now
  rw [hrecover, ← hlive, ← hemits.applyEvents_filter_iff, ← hstate]
  constructor
  · rintro ⟨task, htask, heq⟩
    rw [Except.ok.inj htask]
    exact heq
  · exact fun heq => ⟨recovered, rfl, heq⟩

/-! ### A property at time 5 -/

def emptySnapshotAt (time : EventTime) : NexoraId → InMemoryStore := fun _ => ⟨[], [(time, [0, 0])]⟩

def flagTask : NodeTask := .spawnWithFullState 10 (labelState ∅) none

def flagCommit : Batch := ⟨[(.setProperty "k" (.boolean true), some 5)], none⟩

theorem recoverNode_above_snapshot :
    ∃ task, recoverNode flagLibraries labelCodec none .always (freshLog flagLibraries none 0 .always [flagBatch]).file 0
        (fun qid => .inMemory (emptySnapshotAt 3 qid)) ⟨[1]⟩ 20 = .ok task ∧
      task.state = (flagTask.commitAll [flagCommit]).state := by
  have hbefore : wakeNode flagLibraries labelCodec (.inMemory (emptySnapshotAt 3 ⟨[1]⟩)) ⟨[1]⟩ 10 = .ok flagTask := rfl
  have hops : ([flagBatch].filter fun operation => operation.nexoraId = some ⟨[1]⟩) =
      flagTask.logged ⟨[1]⟩ [flagCommit] := rfl
  exact (recoverNode_eq_live_iff flagLibraries labelCodec none .always 0 (emptySnapshotAt 3) ⟨[1]⟩ rfl hbefore [flagCommit]
    hops flagBatch_all_readable 20).mpr fun _ => rfl

/-- With a snapshot at time 7 the live task has the property and the recovered one has not. -/
theorem recoverNode_below_snapshot :
    (∃ task, recoverNode flagLibraries labelCodec none .always (freshLog flagLibraries none 0 .always [flagBatch]).file 0
        (fun qid => .inMemory (emptySnapshotAt 7 qid)) ⟨[1]⟩ 20 = .ok task ∧ task.state.properties.lookup "k" = none) ∧
      (flagTask.commitAll [flagCommit]).state.properties.lookup "k" = some (.boolean true) := by
  refine ⟨?_, rfl⟩
  have hbefore : wakeNode flagLibraries labelCodec (.inMemory (emptySnapshotAt 7 ⟨[1]⟩)) ⟨[1]⟩ 10 = .ok flagTask := rfl
  have hops : ([flagBatch].filter fun operation => operation.nexoraId = some ⟨[1]⟩) =
      flagTask.logged ⟨[1]⟩ [flagCommit] := rfl
  obtain ⟨task, hrecover, hstate⟩ := recoverNode_logged .always rfl hbefore hops flagBatch_all_readable 20
  refine ⟨task, hrecover, ?_⟩
  rw [hstate]
  rfl

end Nexora
