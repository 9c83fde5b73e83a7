import Nexora.Graph.Commit
import Nexora.Graph.LabelIndex
import Nexora.Graph.PropertyIndex
import Mathlib.Data.Finset.Sort

/-!
# The graph service and its indexes

`GraphService` commits each mutation at its node and then changes the indexes that it keeps beside
the nodes (`graph/mod.rs`). The items of a batch are committed at the same time, and when one of
them fails, those that are still waiting are dropped.
-/

namespace Nexora
open Lib List Function NodeTask

/-! ### The edge index -/

structure EdgeTuple where
  src : NexoraId
  dst : NexoraId
deriving DecidableEq

/-- From an edge type to the pairs of nodes that it joins, and the same pairs turned around. -/
structure EdgeIndex where
  forward : Buckets Symbol EdgeTuple
  reverse : Buckets Symbol EdgeTuple

namespace EdgeIndex

def new : EdgeIndex := ⟨.empty, .empty⟩

def addEdge (index : EdgeIndex) (edgeType : Symbol) (src dst : NexoraId) : EdgeIndex where
  forward := index.forward.add edgeType ⟨src, dst⟩
  reverse := index.reverse.add edgeType ⟨dst, src⟩

def addHalfedge (index : EdgeIndex) (owner : NexoraId) (edge : HalfEdge) : EdgeIndex :=
  if edge.direction = .out then index.addEdge edge.edgeType owner edge.other else index

def removeEdge (index : EdgeIndex) (edgeType : Symbol) (src dst : NexoraId) : EdgeIndex where
  forward := index.forward.remove edgeType ⟨src, dst⟩
  reverse := index.reverse.remove edgeType ⟨dst, src⟩

def removeNode (index : EdgeIndex) (qid : NexoraId) : EdgeIndex where
  forward := index.forward.retain fun tuple => tuple.src ≠ qid ∧ tuple.dst ≠ qid
  reverse := index.reverse.retain fun tuple => tuple.src ≠ qid ∧ tuple.dst ≠ qid

end EdgeIndex

/-! ### What a mutation changes beside the nodes -/

structure Indexes where
  label : LabelIndex
  edge : EdgeIndex
  property : PropertyIndex

namespace Indexes

def new : Indexes := ⟨.empty, .new, .new⟩

def sideEffect (S : Serde) (qid : NexoraId) (indexes : Indexes) : MutationOp → Indexes
  | .addEdge edge => { indexes with edge := indexes.edge.addHalfedge qid edge }
  | .removeEdge edge => { indexes with edge := indexes.edge.removeEdge edge.edgeType qid edge.other }
  | .addLabel label => { indexes with label := indexes.label.addLabel label qid }
  | .removeLabel label => { indexes with label := indexes.label.removeLabel label qid }
  | .setProperty key value => { indexes with property := indexes.property.insert S key value qid }
  | _ => indexes

def applyBatchSideEffects (S : Serde) (indexes : Indexes) (qid : NexoraId)
    (operations : List MutationOp) : Indexes :=
  operations.foldl (sideEffect S qid) indexes

end Indexes

/-! ### Calls -/

/-- The service with its nodes, awake or asleep. `pending` are the items of the running batch that
have been committed and have still to make their changes. -/
structure GraphService where
  nodes : NexoraId → NodeTask
  indexes : Indexes
  nextRequestId : Nat
  pending : List (NexoraId × List MutationOp)

namespace GraphService

def new (clock : NexoraId → EventTime) : GraphService where
  nodes := fun qid => .spawnWithFullState (clock qid) .empty none
  indexes := .new
  nextRequestId := 1
  pending := []

def command (s : GraphService) (qid : NexoraId) (operation : MutationOp) (logged : Bool)
    (after : Indexes → Indexes) :
    GraphService :=
  let d := (s.nodes qid).draft [(operation, none)] none
  if logged then
    { s with nodes := Function.update s.nodes qid ((s.nodes qid).install d), indexes := after s.indexes }
  else { s with nodes := Function.update s.nodes qid ((s.nodes qid).drafted d) }

def mutate (s : GraphService) (qid : NexoraId) (request : MutationRequest) (logged : Bool)
    (after : Indexes → Indexes) :
    GraphService :=
  let result := (s.nodes qid).answerMutate request logged
  { s with
    nodes := Function.update s.nodes qid result.1
    indexes := if result.2 = .failed then s.indexes else after s.indexes }

def setProperty (S : Serde) (s : GraphService) (qid : NexoraId) (key : Symbol)
    (value : PropertyValue) (logged : Bool) :
    GraphService :=
  s.command qid (.setProperty key value) logged fun indexes =>
    { indexes with property := indexes.property.insert S key value qid }

def removeProperty (s : GraphService) (qid : NexoraId) (key : Symbol) (logged : Bool) :
    GraphService :=
  s.command qid (.removeProperty key) logged id

def addEdge (s : GraphService) (qid : NexoraId) (edge : HalfEdge) (logged : Bool) : GraphService :=
  s.command qid (.addEdge edge) logged fun indexes => { indexes with edge := indexes.edge.addHalfedge qid edge }

def removeEdge (s : GraphService) (qid : NexoraId) (edge : HalfEdge) (logged : Bool) :
    GraphService :=
  s.command qid (.removeEdge edge) logged fun indexes =>
    { indexes with edge := indexes.edge.removeEdge edge.edgeType qid edge.other }

def addLabel (s : GraphService) (qid : NexoraId) (label : Symbol) (requestId : Nat)
    (logged : Bool) : GraphService :=
  s.mutate qid ⟨requestId, [(.addLabel label, none)], none, true⟩ logged fun indexes =>
    { indexes with label := indexes.label.addLabel label qid }

def removeLabel (s : GraphService) (qid : NexoraId) (label : Symbol) (requestId : Nat)
    (logged : Bool) : GraphService :=
  s.mutate qid ⟨requestId, [(.removeLabel label, none)], none, true⟩ logged fun indexes =>
    { indexes with label := indexes.label.removeLabel label qid }

def deleteNode (s : GraphService) (qid : NexoraId) (requestId : Nat) (tombstone : TombstoneRecord)
    (logged : Bool) :
    GraphService :=
  s.mutate qid ⟨requestId, [(.deleteNode tombstone, none)], none, true⟩ logged fun indexes =>
    { indexes with edge := indexes.edge.removeNode qid }

/-! ### Batches -/

def commitItem (s : GraphService) (qid : NexoraId)
    (operations : List (MutationOp × Option EventTime)) (eventTime : Option EventTime)
    (awaitDurable logged : Bool) : GraphService :=
  let result := (s.nodes qid).answerMutate ⟨s.nextRequestId, operations, eventTime, awaitDurable⟩ logged
  { s with
    nodes := Function.update s.nodes qid result.1
    nextRequestId := (s.nextRequestId + 1) % 2 ^ 64
    pending := if result.2 = .failed then s.pending else s.pending ++ [(qid, operations.map Prod.fst)] }

def applySideEffects (S : Serde) (s : GraphService) (i : Nat) : GraphService :=
  match s.pending[i]? with
  | none => s
  | some (qid, operations) =>
    { s with
      indexes := s.indexes.applyBatchSideEffects S qid operations
      pending := s.pending.eraseIdx i }

/-- After a restart the nodes are what recovery makes of them, and only the label index is filled
again. -/
def restart (clock : NexoraId → EventTime) (recovered : NexoraId → NodeState × Option EventTime)
    (persisted : List NexoraId) : GraphService where
  nodes := fun qid => .spawnWithFullState (clock qid) (recovered qid).1 (recovered qid).2
  indexes :=
    { Indexes.new with
      label := persisted.foldl (fun index qid =>
        ((recovered qid).1.labels.sort (· ≤ ·)).foldl (fun index label => index.addLabel label qid) index) .empty }
  nextRequestId := 1
  pending := []

end GraphService

/-! ### Runs -/

/-- What can happen: a call (`logged` says whether the log takes its record), a step of a batch, a
lookup, a node that falls asleep and wakes again, a restart. -/
inductive GraphStep where
  | setProperty (qid : NexoraId) (key : Symbol) (value : PropertyValue) (logged : Bool)
  | removeProperty (qid : NexoraId) (key : Symbol) (logged : Bool)
  | addEdge (qid : NexoraId) (edge : HalfEdge) (logged : Bool)
  | removeEdge (qid : NexoraId) (edge : HalfEdge) (logged : Bool)
  | addLabel (qid : NexoraId) (label : Symbol) (requestId : Nat) (logged : Bool)
  | removeLabel (qid : NexoraId) (label : Symbol) (requestId : Nat) (logged : Bool)
  | deleteNode (qid : NexoraId) (requestId : Nat) (tombstone : TombstoneRecord) (logged : Bool)
  | commitItem (qid : NexoraId) (operations : List (MutationOp × Option EventTime)) (eventTime : Option EventTime)
      (awaitDurable logged : Bool)
  | applySideEffects (i : Nat)
  | dropItem (i : Nat)
  | queryPropertyIndex (property : Symbol) (value : PropertyValue) (orders : QueryOrders)
  | respawn (qid : NexoraId) (now : EventTime) (recoveredMaxEventTime : Option EventTime)
  | restart (clock : NexoraId → EventTime) (recovered : NexoraId → NodeState × Option EventTime)
    (persisted : List NexoraId)

namespace GraphService

/-- A call is made when the batch before it has returned. -/
def whenIdle (s s' : GraphService) : GraphService := if s.pending.isEmpty then s' else s

def step (S : Serde) (s : GraphService) : GraphStep → GraphService
  | .setProperty qid key value logged => s.whenIdle (s.setProperty S qid key value logged)
  | .removeProperty qid key logged => s.whenIdle (s.removeProperty qid key logged)
  | .addEdge qid edge logged => s.whenIdle (s.addEdge qid edge logged)
  | .removeEdge qid edge logged => s.whenIdle (s.removeEdge qid edge logged)
  | .addLabel qid label requestId logged => s.whenIdle (s.addLabel qid label requestId logged)
  | .removeLabel qid label requestId logged => s.whenIdle (s.removeLabel qid label requestId logged)
  | .deleteNode qid requestId tombstone logged => s.whenIdle (s.deleteNode qid requestId tombstone logged)
  | .commitItem qid operations eventTime awaitDurable logged => s.commitItem qid operations eventTime awaitDurable logged
  | .applySideEffects i => s.applySideEffects S i
  | .dropItem i => { s with pending := s.pending.eraseIdx i }
  | .queryPropertyIndex property value orders =>
    { s with indexes := { s.indexes with property := (s.indexes.property.query S orders property value).1 } }
  | .respawn qid now recoveredMaxEventTime =>
    { s with
      nodes := Function.update s.nodes qid (.spawnWithFullState now (s.nodes qid).state recoveredMaxEventTime) }
  | .restart clock recovered persisted => restart clock recovered persisted

/-! ### The ways a step can go -/

variable {s s' : GraphService} {qid : NexoraId} {request : MutationRequest} {logged : Bool}
    {after : Indexes → Indexes}

theorem whenIdle_of {P : GraphService → Prop} (h : P s) (h' : s.pending = [] → P s') :
    P (s.whenIdle s') := by
  unfold whenIdle
  split
  · next hempty => exact h' (isEmpty_iff.mp hempty)
  · exact h

theorem mutate_of_remembered {entry : (Nat × Nat) × CommitReceipt}
    (h : (s.nodes qid).findReceipt request.requestId = some entry) :
    s.mutate qid request logged after =
      { s with
        nodes := update s.nodes qid ((s.nodes qid).refreshReceipt request.requestId entry)
        indexes := after s.indexes } := by
  simp only [mutate, answerMutate, h]
  rfl

theorem mutate_of_logged (h : (s.nodes qid).findReceipt request.requestId = none) :
    let d := (s.nodes qid).draft request.operations request.eventTime
    s.mutate qid request true after =
      { s with
        nodes := update s.nodes qid
          (((s.nodes qid).install d).rememberReceipt request.requestId ((s.nodes qid).receipt d))
        indexes := after s.indexes } := by
  simp only [mutate, answerMutate, h]
  rfl

theorem mutate_of_refused (h : (s.nodes qid).findReceipt request.requestId = none) :
    s.mutate qid request false after = { s with
        nodes := update s.nodes qid
          ((s.nodes qid).drafted ((s.nodes qid).draft request.operations request.eventTime)) } := by
  simp only [mutate, answerMutate, h]
  rfl

variable {operations : List (MutationOp × Option EventTime)} {eventTime : Option EventTime}
    {awaitDurable : Bool}

theorem commitItem_of_logged (h : (s.nodes qid).findReceipt s.nextRequestId = none) :
    let d := (s.nodes qid).draft operations eventTime
    s.commitItem qid operations eventTime awaitDurable true =
      { s with
        nodes := update s.nodes qid
          (((s.nodes qid).install d).rememberReceipt s.nextRequestId ((s.nodes qid).receipt d))
        nextRequestId := (s.nextRequestId + 1) % 2 ^ 64
        pending := s.pending ++ [(qid, operations.map Prod.fst)] } := by
  simp only [commitItem, answerMutate, h]
  rfl

theorem commitItem_of_refused (h : (s.nodes qid).findReceipt s.nextRequestId = none) :
    s.commitItem qid operations eventTime awaitDurable false =
      { s with
        nodes :=
  update s.nodes qid ((s.nodes qid).drafted ((s.nodes qid).draft operations eventTime))
        nextRequestId := (s.nextRequestId + 1) % 2 ^ 64 } := by
  simp only [commitItem, answerMutate, h]
  rfl

/-! ### Items that have still to make their changes -/

def operationsOf (pending : List (NexoraId × List MutationOp)) (qid : NexoraId) : List MutationOp :=
  (pending.filter fun item => item.1 = qid).flatMap Prod.snd

variable {pending : List (NexoraId × List MutationOp)} {item : NexoraId × List MutationOp} {i : Nat}

theorem operationsOf_nil (qid : NexoraId) : operationsOf [] qid = [] := rfl

theorem operationsOf_append (pending more : List (NexoraId × List MutationOp)) (qid : NexoraId) :
    operationsOf (pending ++ more) qid = operationsOf pending qid ++ operationsOf more qid := by
  rw [operationsOf, filter_append, flatMap_append]
  rfl

theorem operationsOf_cons (item : NexoraId × List MutationOp)
    (pending : List (NexoraId × List MutationOp)) (qid : NexoraId) :
    operationsOf (item :: pending) qid = (if item.1 = qid then item.2 else []) ++ operationsOf pending qid := by
  unfold operationsOf
  split
  · next heq => rw [filter_cons_of_pos (by simpa using heq), flatMap_cons]
  · next hne => rw [filter_cons_of_neg (by simpa using hne), nil_append]

theorem operationsOf_of_forall_ne (h : ∀ item ∈ pending, item.1 ≠ qid) :
    operationsOf pending qid = [] := by
  have hnone : (pending.filter fun item => item.1 = qid) = [] :=
    filter_eq_nil_iff.mpr fun item hitem => by simpa using h item hitem
  simp [operationsOf, hnone]

end GraphService

/-! ### What a commit does to the tombstone -/

namespace NodeTask
variable {task : NodeTask} {operations : List (MutationOp × Option EventTime)}

theorem state_drafted
    (h : ∀ operation ∈ operations, ∀ tombstone, operation.1 ≠ .deleteNode tombstone)
    (eventTime : Option EventTime) :
    (task.drafted (task.draft operations eventTime)).state = task.state := by
  rw [state_drafted_eq, lastWrite_of_forall_getD]
  intro operation hoperation
  simp [MutationOp.setsTombstone_of_ne (h operation hoperation)]

theorem state_drafted_singleton {operation : MutationOp}
    (h : ∀ tombstone, operation ≠ .deleteNode tombstone) :
    (task.drafted (task.draft [(operation, none)] none)).state = task.state :=
  state_drafted (forall_mem_singleton.mpr h) none

end NodeTask
end Nexora
