import Nexora.Event
import Mathlib.Data.Finset.Insert

/-!
# The task of one node

A node is owned by one task that takes its commands one after the other (`graph/node_task.rs`). A
commit works on copies of the state, which replace it when the events are in the write-ahead log.
Property writes and removals are resolved by event time.
-/

namespace Nexora

/-- The part of a node that its snapshot holds. -/
@[ext]
structure NodeState where
  labels : Finset Symbol
  tombstone : Option TombstoneRecord
  properties : Finmap fun _ : Symbol => PropertyValue
  propertyTimes : Finmap fun _ : Symbol => EventTime
  edges : Finset HalfEdge
  edgeProperties : Finmap fun _ : Symbol × NexoraId => Finmap fun _ : Symbol => PropertyValue

namespace NodeState

def empty : NodeState := ⟨∅, none, ∅, ∅, ∅, ∅⟩

variable (s : NodeState)

/-- Whether a property write or removal at this time is not older than what is stored. A key without
a time loses to every write. -/
def wins (key : Symbol) (time : EventTime) : Bool :=
  match s.propertyTimes.lookup key with
  | some existing => existing ≤ time
  | none => true

def insertProperty (key : Symbol) (value : PropertyValue) (time : EventTime) : NodeState :=
  { s with properties := s.properties.insert key value, propertyTimes := s.propertyTimes.insert key time }

/-- The time stays behind as a tombstone of the property. -/
def removeProperty (key : Symbol) (time : EventTime) : NodeState :=
  { s with properties := s.properties.erase key, propertyTimes := s.propertyTimes.insert key time }

def insertEdge (edge : HalfEdge) : NodeState := { s with edges := insert edge s.edges }

def removeEdge (edge : HalfEdge) : NodeState := { s with edges := s.edges.erase edge }

def insertLabel (label : Symbol) : NodeState := { s with labels := insert label s.labels }

def removeLabel (label : Symbol) : NodeState := { s with labels := s.labels.erase label }

def insertEdgeProperty (edgeType : Symbol) (dst : NexoraId) (key : Symbol) (value : PropertyValue) :
    NodeState :=
  let entry := (s.edgeProperties.lookup (edgeType, dst)).getD ∅
  { s with edgeProperties := s.edgeProperties.insert (edgeType, dst) (entry.insert key value) }

end NodeState

/-! ### Operations -/

inductive MutationOp where
  | setProperty (key : Symbol) (value : PropertyValue)
  | removeProperty (key : Symbol)
  | addEdge (edge : HalfEdge)
  | removeEdge (edge : HalfEdge)
  | addLabel (label : Symbol)
  | removeLabel (label : Symbol)
  | edgePropertySet (edgeType : Symbol) (dst : NexoraId) (key : Symbol) (value : PropertyValue)
  | deleteNode (tombstone : TombstoneRecord)

structure MutationRequest where
  requestId : Nat
  operations : List (MutationOp × Option EventTime)
  eventTime : Option EventTime
  awaitDurable : Bool

structure CommitReceipt where
  eventTime : EventTime
  eventCount : Nat
  lateDropped : Nat
deriving DecidableEq

variable (s : NodeState)

def MutationOp.apply (time : EventTime) : MutationOp → NodeState × Option NodeChangeEvent
  | .setProperty key value =>
      if s.wins key time then (s.insertProperty key value time, some (.propertySet key value)) else (s, none)
  | .removeProperty key =>
      if s.wins key time then
        (s.removeProperty key time, some (.propertyRemoved key ((s.properties.lookup key).getD .null)))
      else (s, none)
  | .addEdge edge => if edge ∈ s.edges then (s, none) else (s.insertEdge edge, some (.edgeAdded edge))
  | .removeEdge edge => if edge ∈ s.edges then (s.removeEdge edge, some (.edgeRemoved edge)) else (s, none)
  | .addLabel label => if label ∈ s.labels then (s, none) else (s.insertLabel label, some (.labelAdded label))
  | .removeLabel label => if label ∈ s.labels then (s.removeLabel label, some (.labelRemoved label)) else (s, none)
  | .edgePropertySet edgeType dst key value =>
      (s.insertEdgeProperty edgeType dst key value, some (.edgePropertySet edgeType dst key value))
  | .deleteNode tombstone => ({ s with tombstone := some tombstone }, some (.nodeDeleted tombstone))

section
variable (time : EventTime)

theorem MutationOp.fst_apply_addEdge (edge : HalfEdge) :
    ((MutationOp.addEdge edge).apply s time).1 = s.insertEdge edge := by
  rw [apply]
  split
  · next hmem => simp only [NodeState.insertEdge, Finset.insert_eq_of_mem hmem]
  · rfl

theorem MutationOp.fst_apply_removeEdge (edge : HalfEdge) :
    ((MutationOp.removeEdge edge).apply s time).1 = s.removeEdge edge := by
  rw [apply]
  split
  · rfl
  · next hmem => simp only [NodeState.removeEdge, Finset.erase_eq_of_notMem hmem]

theorem MutationOp.fst_apply_addLabel (label : Symbol) :
    ((MutationOp.addLabel label).apply s time).1 = s.insertLabel label := by
  rw [apply]
  split
  · next hmem => simp only [NodeState.insertLabel, Finset.insert_eq_of_mem hmem]
  · rfl

theorem MutationOp.fst_apply_removeLabel (label : Symbol) :
    ((MutationOp.removeLabel label).apply s time).1 = s.removeLabel label := by
  rw [apply]
  split
  · rfl
  · next hmem => simp only [NodeState.removeLabel, Finset.erase_eq_of_notMem hmem]

end

def MutationOp.isLate (time : EventTime) : MutationOp → Bool
  | .setProperty key _ => !s.wins key time
  | .removeProperty key => !s.wins key time
  | _ => false

/-! ### The commit path -/

/-- The locals of `commit_operations`: the copies of the state, the events so far, and the clock, of
which the first operation without a time of its own gets the receipt's tick. `next.tombstone` is the
task's own field, which `DeleteNode` sets at once. -/
structure CommitDraft where
  next : NodeState
  events : NodeEvents
  lateDropped : Nat
  receiptTimeUsed : Bool
  nextEventTime : EventTime

namespace CommitDraft

/-- The time of an operation: its own, else the batch's, else a tick of the node's clock. -/
def opTime (receiptTime : EventTime) (fallback : Option EventTime) (d : CommitDraft)
    (opEventTime : Option EventTime) :
    EventTime :=
  match opEventTime.or fallback with
  | some time => time
  | none => if d.receiptTimeUsed then d.nextEventTime + 1 else receiptTime

def tick (fallback : Option EventTime) (d : CommitDraft) (opEventTime : Option EventTime) :
    CommitDraft :=
  match opEventTime.or fallback with
  | some _ => d
  | none => if d.receiptTimeUsed then { d with nextEventTime := d.nextEventTime + 1 } else { d with receiptTimeUsed := true }

def step (receiptTime : EventTime) (fallback : Option EventTime) (d : CommitDraft)
    (operation : MutationOp × Option EventTime) : CommitDraft :=
  let time := d.opTime receiptTime fallback operation.2
  let result := operation.1.apply d.next time
  { d.tick fallback operation.2 with
    next := result.1
    events := d.events ++ (result.2.map fun event => ⟨event, time⟩).toList
    lateDropped := if operation.1.isLate d.next time then d.lateDropped + 1 else d.lateDropped }

end CommitDraft

/-- A running task. The cache of receipts is ordered by the time of the last access. -/
structure NodeTask where
  state : NodeState
  journal : NodeEvents
  nextEventTime : EventTime
  dedupCache : List ((Nat × Nat) × CommitReceipt)
  dedupAccessCounter : Nat

namespace NodeTask

def dedupCapacity : Nat := 10000

/-- `spawn_with_full_state` at clock time `now`. -/
def spawnWithFullState (now : EventTime) (state : NodeState)
    (recoveredMaxEventTime : Option EventTime) : NodeTask where
  state := state
  journal := []
  nextEventTime :=
    match recoveredMaxEventTime with
    | some maxRecovered => max now maxRecovered.saturatingSucc
    | none => now
  dedupCache := []
  dedupAccessCounter := 0

variable (task : NodeTask)

/-- `commit_operations` up to the append to the log. -/
def draft (operations : List (MutationOp × Option EventTime)) (fallback : Option EventTime) :
    CommitDraft :=
  operations.foldl (CommitDraft.step (task.nextEventTime + 1) fallback)
    ⟨task.state, [], 0, false, task.nextEventTime + 1⟩

/-- The task while it waits for the log: its clock has moved on and its tombstone is set. -/
def drafted (d : CommitDraft) : NodeTask :=
  { task with state := { task.state with tombstone := d.next.tombstone }, nextEventTime := d.nextEventTime }

/-- `commit_operations` from the durability barrier on. -/
def install (d : CommitDraft) : NodeTask :=
  { task with state := d.next, journal := task.journal ++ d.events, nextEventTime := d.nextEventTime }

def receipt (d : CommitDraft) : CommitReceipt :=
  ⟨task.nextEventTime + 1, d.events.length, d.lateDropped⟩

def findReceipt (requestId : Nat) : Option ((Nat × Nat) × CommitReceipt) :=
  task.dedupCache.find? fun entry => entry.1.2 = requestId

def refreshReceipt (requestId : Nat) (entry : (Nat × Nat) × CommitReceipt) : NodeTask :=
  { task with
    dedupCache := task.dedupCache.filter (fun other => other.1 ≠ entry.1) ++
      [((task.dedupAccessCounter + 1, requestId), entry.2)]
    dedupAccessCounter := task.dedupAccessCounter + 1 }

/-- Remember the receipt of a request, and forget the older half of the cache when it is full. -/
def rememberReceipt (requestId : Nat) (receipt : CommitReceipt) : NodeTask :=
  let cache := task.dedupCache ++ [((task.dedupAccessCounter + 1, requestId), receipt)]
  { task with
    dedupCache := if dedupCapacity < cache.length then cache.drop (cache.length / 2) else cache
    dedupAccessCounter := task.dedupAccessCounter + 1 }

/-- `handle_mutate`, given that the log takes the record: the task after it and the receipt. -/
def handleMutate (request : MutationRequest) : NodeTask × CommitReceipt :=
  match task.findReceipt request.requestId with
  | some entry => (task.refreshReceipt request.requestId entry, entry.2)
  | none =>
    let d := task.draft request.operations request.eventTime
    ((task.install d).rememberReceipt request.requestId (task.receipt d), task.receipt d)

/-- The record that `handle_mutate` appends to the log, unless the request has been answered
before. -/
def mutateRecord (qid : NexoraId) (request : MutationRequest) : Option WalOperation :=
  match task.findReceipt request.requestId with
  | some _ => none
  | none => some (.nodeEvents qid (task.draft request.operations request.eventTime).events)

def mutateEvents (request : MutationRequest) : NodeEvents :=
  match task.findReceipt request.requestId with
  | some _ => []
  | none => (task.draft request.operations request.eventTime).events

end NodeTask
end Nexora
