import Nexora.Graph.Persistor
import Nexora.Graph.Replay
import Nexora.Wal.Log
import Mathlib.Data.List.DropRight

/-!
# Sleeping, waking and recovering nodes

A shard keeps some of its nodes as running tasks (`graph/shard/mod.rs`). A sleep writes journal and
snapshot to the persistor; waking loads the snapshot with the greatest time and folds the later
events into it. After a crash the uncovered events of the log are written first.
-/

namespace Nexora
open Lib NodeStore

/-- `serialize_snapshot` and `deserialize_snapshot`. -/
structure SnapshotCodec where
  serialize : NodeState → Except String (List UInt8)
  deserialize : List UInt8 → Except String NodeState

inductive ShardError where
  | nodeNotFound (qid : NexoraId)
  | nodeUnavailable (qid : NexoraId)
  | persistence (message : String)
  | internal (message : String)
deriving DecidableEq

structure NodeStateSnapshot where
  state : NodeState
  journal : NodeEvents

def NodeTask.snapshotState (task : NodeTask) : NodeStateSnapshot := ⟨task.state, task.journal⟩

def latestTime (events : NodeEvents) : Option EventTime := (events.map TimedEvent.time).max?

def NodeStateSnapshot.time (snap : NodeStateSnapshot) (now : EventTime) : EventTime :=
  match latestTime snap.journal with
  | some latest => max latest now
  | none => now

/-! ### Waking -/

def recoverSnapshot (codec : SnapshotCodec) :
    Option (EventTime × List UInt8) → Except String NodeState
  | some row => codec.deserialize row.2
  | none => .ok .empty

/-- `wake_node` from the loading of the snapshot on. -/
def wakeNode (S : Serde) (codec : SnapshotCodec) (st : NodeStore) (qid : NexoraId)
    (now : EventTime) :
    Except ShardError NodeTask :=
  match st.getLatestSnapshot qid EventTime.MAX with
  | .error e => .error (.persistence e.text)
  | .ok snapshot =>
    match recoverSnapshot codec snapshot with
    | .error e => .error (.persistence ("invalid snapshot: " ++ e))
    | .ok recovered =>
      match st.getNodeChangeEvents S qid (snapshot.map fun row => row.1.saturatingSucc) none with
      | .error e => .error (.persistence e.text)
      | .ok events => .ok (.spawnWithFullState now (recovered.applyEvents events) (latestTime events))

def WakesWith (S : Serde) (codec : SnapshotCodec) (qid : NexoraId) (st : NodeStore)
    (state : NodeState) : Prop :=
  ∀ now, ∃ woken, wakeNode S codec st qid now = .ok woken ∧ woken.state = state

/-! ### Sleeping -/

def persistJournal (S : Serde) (st : NodeStore) (qid : NexoraId) (snap : NodeStateSnapshot) :
    Except ShardError NodeStore :=
  if snap.journal.isEmpty then .ok st
  else match st.persistNodeChangeEvents S qid snap.journal with
    | .error e => .error (.persistence e.text)
    | .ok st => .ok st

def persistState (codec : SnapshotCodec) (st : NodeStore) (qid : NexoraId)
    (snap : NodeStateSnapshot) (now : EventTime) :
    Except ShardError NodeStore :=
  match codec.serialize snap.state with
  | .error e => .error (.persistence ("snapshot serialization failed: " ++ e))
  | .ok data =>
    match st.persistSnapshot qid (snap.time now) data with
    | .error e => .error (.persistence e.text)
    | .ok st => .ok st

/-- What `sleep_node` writes to the persistor when nothing else happens to the node meanwhile. A
failed second write leaves the first one. -/
def sleepNode (S : Serde) (codec : SnapshotCodec) (st : NodeStore) (qid : NexoraId)
    (task : NodeTask) (now : EventTime) :
    NodeStore × Except ShardError Unit :=
  match persistJournal S st qid task.snapshotState with
  | .error e => (st, .error e)
  | .ok st =>
    match persistState codec st qid task.snapshotState now with
    | .error e => (st, .error e)
    | .ok st => (st, .ok ())

/-! ### What the writes of `sleep_node` leave -/

section Writes
variable {S : Serde} {codec : SnapshotCodec} {st st' : NodeStore} {qid : NexoraId}
    {snap : NodeStateSnapshot}
  {now : EventTime}

theorem NodeStateSnapshot.le_time (snap : NodeStateSnapshot) (now : EventTime) :
    ∀ time ∈ snap.journal.map TimedEvent.time, time ≤ snap.time now := by
  intro time htime
  unfold NodeStateSnapshot.time
  cases hlatest : latestTime snap.journal with
  | none =>
    rw [List.max?_eq_none_iff.mp hlatest] at htime
    exact absurd htime List.not_mem_nil
  | some latest => exact le_trans ((List.max?_le_iff hlatest).mp le_rfl time htime) (le_max_left latest now)

theorem persistJournal_eq_ok (h : persistJournal S st qid snap = .ok st') :
    st' = st ∨ st.persistNodeChangeEvents S qid snap.journal = .ok st' := by
  unfold persistJournal at h
  split at h
  · cases h
    exact .inl rfl
  · split at h
    · cases h
    · next hpersist =>
      cases h
      exact .inr hpersist

theorem eventTimes_of_persistJournal (h : persistJournal S st qid snap = .ok st') :
    ∀ time ∈ st'.eventTimes, time ∈ st.eventTimes ∨ time ∈ snap.journal.map TimedEvent.time := by
  obtain rfl | hpersist := persistJournal_eq_ok h
  · exact fun time htime => Or.inl htime
  · exact eventTimes_of_persistNodeChangeEvents hpersist

theorem snapshotRows_of_persistJournal (h : persistJournal S st qid snap = .ok st') :
    st'.snapshotRows = st.snapshotRows := by
  obtain rfl | hpersist := persistJournal_eq_ok h
  · rfl
  · exact snapshotRows_of_persistNodeChangeEvents hpersist

theorem persistState_eq_ok (h : persistState codec st qid snap now = .ok st') :
    ∃ data, codec.serialize snap.state = .ok data ∧ st.persistSnapshot qid (snap.time now) data = .ok st' := by
  unfold persistState at h
  split at h
  · cases h
  next data hdata =>
  split at h
  · cases h
  next hpersist =>
  cases h
  exact ⟨data, hdata, hpersist⟩

theorem sleepNode_cases (S : Serde) (codec : SnapshotCodec) (st : NodeStore) (qid : NexoraId)
    (task : NodeTask) (now : EventTime) :
    (∃ st₁ st₂, persistJournal S st qid task.snapshotState = .ok st₁ ∧
      persistState codec st₁ qid task.snapshotState now = .ok st₂ ∧ sleepNode S codec st qid task now = (st₂, .ok ())) ∨
    (∃ st₁ e, (st₁ = st ∨ persistJournal S st qid task.snapshotState = .ok st₁) ∧
      sleepNode S codec st qid task now = (st₁, .error e)) := by
  unfold sleepNode
  cases hjournal : persistJournal S st qid task.snapshotState with
  | error e => exact Or.inr ⟨st, e, Or.inl rfl, rfl⟩
  | ok st₁ =>
    cases hstate : persistState codec st₁ qid task.snapshotState now with
    | error e => exact Or.inr ⟨st₁, e, Or.inr rfl, by simp only [hstate]⟩
    | ok st₂ => exact Or.inl ⟨st₁, st₂, rfl, hstate, by simp only [hstate]⟩

def SnapshotCodec.ReadsBack (codec : SnapshotCodec) (state : NodeState) : Prop :=
  ∀ data, codec.serialize state = .ok data → codec.deserialize data = .ok state

theorem wakeNode_of_snapshot {time : EventTime} {data : List UInt8} {state : NodeState}
    (hlatest : st.getLatestSnapshot qid EventTime.MAX = .ok (some (time, data)))
    (hdata : codec.deserialize data = .ok state) (hevents : ∀ t ∈ st.eventTimes, t ≤ time)
    (hmax : time < EventTime.MAX) (hkey : st.KeyOk qid) (wakeTime : EventTime) :
    wakeNode S codec st qid wakeTime = .ok (.spawnWithFullState wakeTime state none) := by
  have habove : ∀ t ∈ st.eventTimes, t < time.saturatingSucc := by
    intro t ht
    by_contra hnot
    have hlt := (EventTime.saturatingSucc_le_iff_lt hmax t).mp (not_lt.mp hnot)
    exact absurd (hevents t ht) (not_le.mpr hlt)
  have hnone := getNodeChangeEvents_above (S := S) habove hkey
  simp only [wakeNode, hlatest, recoverSnapshot, hdata, Option.map_some, hnone]
  rfl

theorem wakeNode_of_persistState (h : persistState codec st qid snap now = .ok st')
    (hrows : ∀ row ∈ st.snapshotRows, row.1 ≤ snap.time now)
    (hevents : ∀ time ∈ st.eventTimes, time ≤ snap.time now) (hmax : snap.time now < EventTime.MAX)
    (hcodec : codec.ReadsBack snap.state) (wakeTime : EventTime) :
    wakeNode S codec st' qid wakeTime = .ok (.spawnWithFullState wakeTime snap.state none) := by
  obtain ⟨data, hdata, hpersist⟩ := persistState_eq_ok h
  refine wakeNode_of_snapshot (getLatestSnapshot_of_persistSnapshot hpersist hrows) (hcodec data hdata) ?_ hmax
    (keyOk_of_persistSnapshot hpersist) wakeTime
  rw [eventTimes_of_persistSnapshot hpersist]
  exact hevents

end Writes

def labelState (labels : Finset Symbol) : NodeState := { NodeState.empty with labels := labels }

/-- Stands for the snapshot codec: it reads back states that have only the labels `A` and `B`. -/
def labelCodec : SnapshotCodec where
  serialize state := .ok [if "A" ∈ state.labels then 1 else 0, if "B" ∈ state.labels then 1 else 0]
  deserialize data := .ok (labelState
    ((if data.head? = some 1 then {"A"} else ∅) ∪ (if data.getLast? = some 1 then {"B"} else ∅)))

theorem labelCodec_readsBack {labels : Finset Symbol} (hlabels : labels ⊆ {"A", "B"}) :
    labelCodec.ReadsBack (labelState labels) := by
  intro data hdata
  cases hdata
  refine congrArg (fun labels => Except.ok (labelState labels)) (Finset.ext fun label => ?_)
  have hmem : label ∈ labels → label = "A" ∨ label = "B" := fun h => by simpa using hlabels h
  by_cases hA : "A" ∈ labels <;> by_cases hB : "B" ∈ labels <;> simp [labelState, hA, hB] <;> grind

/-! ### Recovering -/

def WalOperation.isCheckpoint : WalOperation → Bool
  | .snapshotCheckpoint _ _ => true
  | _ => false

def WalOperation.nodeEventList : WalOperation → NodeEvents
  | .nodeEvent _ event => [event]
  | .nodeEvents _ events => events
  | _ => []

def operationsOf (records : List WalRecord) (qid : NexoraId) : List WalOperation :=
  (records.map WalRecord.operation).filter fun operation => operation.nexoraId = some qid

def replayEvents (operations : List WalOperation) : NodeEvents :=
  (operations.rtakeWhile fun operation => !operation.isCheckpoint).flatMap WalOperation.nodeEventList

def replayNode (S : Serde) (cipher : Option Cipher) (records : List WalRecord) (w : WriteAheadLog)
    (p : Persistor) (qid : NexoraId) : Except ShardError (WriteAheadLog × Persistor) :=
  let events := replayEvents (operationsOf records qid)
  match latestTime events with
  | none => .ok (w, p)
  | some recoveredThrough =>
    match p.persistNodeChangeEvents S qid events with
    | .error e => .error (.persistence e.text)
    | .ok p => .ok ((w.append S cipher (.snapshotCheckpoint qid recoveredThrough)).1, p)

def replayNodes (S : Serde) (cipher : Option Cipher) (records : List WalRecord) (w : WriteAheadLog)
    (p : Persistor) :
    List NexoraId → Except ShardError (WriteAheadLog × Persistor)
  | [] => .ok (w, p)
  | qid :: qids =>
    match replayNode S cipher records w p qid with
    | .error e => .error e
    | .ok (w, p) => replayNodes S cipher records w p qids

/-- `replay_wal`: the log and the persistor after it, and the number of records replayed. -/
def replayWal (S : Serde) (cipher : Option Cipher) (w : WriteAheadLog) (p : Persistor) :
    Except ShardError (WriteAheadLog × Persistor × Nat) :=
  let (result, w) := w.replay S cipher
  let qids := (result.records.filterMap fun record => record.operation.nexoraId).dedup
  match replayNodes S cipher result.records w p qids with
  | .error e => .error e
  | .ok (w, p) => .ok (w, p, result.records.length)

end Nexora
