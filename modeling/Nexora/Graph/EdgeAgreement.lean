import Nexora.Graph.Service

/-!
# The edge index against the nodes

The forward relation of the edge index is to hold the outgoing half-edges of the nodes that are not
deleted. For one edge type and one pair of nodes both sides are a bit that operations write, and
some operations do not write it alike.
-/

namespace Nexora
open Lib MutationOp NodeState EdgeIndex List Bool NodeTask

/-! ### Two bits for each edge -/

def NodeState.liveOut (s : NodeState) (edgeType : Symbol) (dst : NexoraId) : Bool :=
  s.tombstone.isNone && decide (⟨edgeType, .out, dst⟩ ∈ s.edges)

def EdgeIndex.hasForward (index : EdgeIndex) (edgeType : Symbol) (src dst : NexoraId) : Bool :=
  decide (⟨src, dst⟩ ∈ index.forward.bucket edgeType)

/-- What the index makes of an operation of the source node. -/
def MutationOp.edgeWrites (edgeType : Symbol) (dst : NexoraId) : MutationOp → Option Bool
  | .addEdge edge => if edge = ⟨edgeType, .out, dst⟩ then some true else none
  | .removeEdge edge => if edge.edgeType = edgeType ∧ edge.other = dst then some false else none
  | _ => none

/-- An outgoing half-edge is added to a node that is not deleted, an incoming one is removed when
there is no outgoing one to the same node, and a node is deleted that has no outgoing half-edges. -/
def MutationOp.EdgeOk (s : NodeState) : MutationOp → Prop
  | .addEdge edge => edge.direction = .out → s.tombstone = none
  | .removeEdge edge => edge.direction = .incoming → s.liveOut edge.edgeType edge.other = false
  | .deleteNode _ => ∀ edgeType dst, s.liveOut edgeType dst = false
  | _ => True

namespace EdgeIndex
variable {index : EdgeIndex} {edgeType : Symbol} {src dst : NexoraId}

theorem hasForward_addHalfedge (owner : NexoraId) (edge : HalfEdge) :
    (index.addHalfedge owner edge).hasForward edgeType src dst =
    if src = owner then ((MutationOp.addEdge edge).edgeWrites edgeType dst).getD (index.hasForward edgeType src dst)
    else index.hasForward edgeType src dst := by
  obtain ⟨type, direction, other⟩ := edge
  unfold addHalfedge
  cases direction with
  | out =>
    have hbit : (index.addEdge type owner other).hasForward edgeType src dst =
        (decide (edgeType = type ∧ src = owner ∧ dst = other) || index.hasForward edgeType src dst) := by
      simp [hasForward, addEdge, EdgeTuple.mk.injEq]
    rw [if_pos rfl, hbit]
    by_cases hsrc : src = owner <;> by_cases hedge : edgeType = type ∧ dst = other
    · simp [edgeWrites, hsrc, hedge]
    · have hne : ¬ (type = edgeType ∧ other = dst) := fun h => hedge ⟨h.1.symm, h.2.symm⟩
      simp [edgeWrites, hsrc, hedge, hne]
    · simp [hsrc]
    · simp [hsrc]
  | incoming => simp [edgeWrites]

theorem hasForward_removeEdge (owner : NexoraId) (edge : HalfEdge) :
    (index.removeEdge edge.edgeType owner edge.other).hasForward edgeType src dst =
      if src = owner then ((MutationOp.removeEdge edge).edgeWrites edgeType dst).getD (index.hasForward edgeType src dst)
      else index.hasForward edgeType src dst := by
  have hbit : (index.removeEdge edge.edgeType owner edge.other).hasForward edgeType src dst =
      (!decide (edgeType = edge.edgeType ∧ src = owner ∧ dst = edge.other) && index.hasForward edgeType src dst) := by
    simp [hasForward, removeEdge, EdgeTuple.mk.injEq]
  rw [hbit]
  by_cases hsrc : src = owner <;> by_cases hedge : edge.edgeType = edgeType ∧ edge.other = dst
  · obtain ⟨rfl, rfl⟩ := hedge
    simp [edgeWrites, hsrc]
  · have hne : ¬ (edgeType = edge.edgeType ∧ dst = edge.other) := fun h => hedge ⟨h.1.symm, h.2.symm⟩
    simp [edgeWrites, hsrc, hedge, hne]
  · simp [hsrc]
  · simp [hsrc]

theorem hasForward_removeNode (qid : NexoraId) :
    (index.removeNode qid).hasForward edgeType src dst =
    (decide (src ≠ qid ∧ dst ≠ qid) && index.hasForward edgeType src dst) := by
  rw [hasForward, removeNode, decide_eq_decide.mpr Buckets.mem_bucket_retain, decide_and, decide_eq_true]
  rfl

end EdgeIndex

namespace Indexes
variable {indexes : Indexes} {edgeType : Symbol} {src dst : NexoraId}

theorem hasForward_sideEffect (S : Serde) (qid : NexoraId) (operation : MutationOp) :
    (indexes.sideEffect S qid operation).edge.hasForward edgeType src dst =
      if src = qid then (operation.edgeWrites edgeType dst).getD (indexes.edge.hasForward edgeType src dst)
      else indexes.edge.hasForward edgeType src dst := by
  cases operation with
  | addEdge edge => exact hasForward_addHalfedge qid edge
  | removeEdge edge => exact hasForward_removeEdge qid edge
  | _ => exact (ite_self _).symm

theorem hasForward_applyBatchSideEffects (S : Serde) (qid : NexoraId)
    (operations : List MutationOp) :
    (indexes.applyBatchSideEffects S qid operations).edge.hasForward edgeType src dst =
      if src = qid then
        lastWrite (edgeWrites edgeType dst) (indexes.edge.hasForward edgeType src dst) operations
      else indexes.edge.hasForward edgeType src dst := by
  induction operations generalizing indexes with
  | nil => exact (ite_self _).symm
  | cons operation operations ih =>
    rw [applyBatchSideEffects, foldl_cons, ← applyBatchSideEffects, ih, hasForward_sideEffect, lastWrite_cons]
    split <;> rfl

end Indexes

/-! ### The nodes' side -/

variable {edgeType : Symbol} {dst : NexoraId}

theorem MutationOp.liveOut_apply {s : NodeState} {operation : MutationOp} (h : operation.EdgeOk s)
    (time : EventTime) :
    (operation.apply s time).1.liveOut edgeType dst =
      (operation.edgeWrites edgeType dst).getD (s.liveOut edgeType dst) := by
  cases operation with
  | setProperty | removeProperty =>
    rw [MutationOp.apply]
    split <;> rfl
  | addEdge edge =>
    rw [MutationOp.fst_apply_addEdge, NodeState.liveOut, NodeState.insertEdge, MutationOp.edgeWrites, NodeState.liveOut]
    split
    · next heq => simp [h (heq ▸ rfl), heq]
    · next hne => simp [Ne.symm hne]
  | removeEdge edge =>
    rw [MutationOp.fst_apply_removeEdge, MutationOp.edgeWrites]
    obtain ⟨type, direction, other⟩ := edge
    split
    · next heq =>
      obtain ⟨rfl, rfl⟩ := heq
      cases direction with
      | out => simp [NodeState.liveOut, NodeState.removeEdge]
      | incoming =>
        have hnone : s.liveOut type other = false := h rfl
        simpa [NodeState.liveOut, NodeState.removeEdge] using hnone
    · next hne =>
      have hedge : (⟨edgeType, .out, dst⟩ : HalfEdge) ≠ ⟨type, direction, other⟩ := by
        rintro heq
        cases heq
        exact hne ⟨rfl, rfl⟩
      simp [NodeState.liveOut, NodeState.removeEdge, hedge]
  | addLabel label =>
    rw [MutationOp.fst_apply_addLabel]
    rfl
  | removeLabel label =>
    rw [MutationOp.fst_apply_removeLabel]
    rfl
  | edgePropertySet type other key value => rfl
  | deleteNode tombstone => exact (h edgeType dst).symm

def NodeTask.EdgesOk (task : NodeTask) (operations : List (MutationOp × Option EventTime))
    (eventTime : Option EventTime) :
    Prop :=
  Along (CommitDraft.step (task.nextEventTime + 1) eventTime) (fun d operation => operation.1.EdgeOk d.next)
    ⟨task.state, [], 0, false, task.nextEventTime + 1⟩ operations

theorem NodeTask.liveOut_draft {task : NodeTask} {operations : List (MutationOp × Option EventTime)}
    {eventTime : Option EventTime} (h : task.EdgesOk operations eventTime) :
    (task.draft operations eventTime).next.liveOut edgeType dst =
      lastWrite (edgeWrites edgeType dst) (task.state.liveOut edgeType dst) (operations.map Prod.fst) := by
  rw [lastWrite, foldl_map]
  exact @run_eq_lastWrite Bool _ _ _ _ (fun d => d.next.liveOut edgeType dst)
    (fun operation => operation.1.edgeWrites edgeType dst) (fun d operation hok => liveOut_apply hok _) _ _ h

namespace GraphService

/-! ### Runs -/

def EdgesAgree (s : GraphService) : Prop :=
  ∀ edgeType src dst, s.indexes.edge.hasForward edgeType src dst = (s.nodes src).state.liveOut edgeType dst

def EdgeStepOk (s : GraphService) : GraphStep → Prop
  | .addEdge qid edge logged => logged → (MutationOp.addEdge edge).EdgeOk (s.nodes qid).state
  | .removeEdge qid edge logged => logged → (MutationOp.removeEdge edge).EdgeOk (s.nodes qid).state
  | .deleteNode qid requestId _ logged =>
    -- Nothing is to go from the index that a node keeps, and the node is to lose nothing that the index keeps.
    ((s.nodes qid).findReceipt requestId ≠ none ∨ logged = true →
      ∀ src edgeType, src ≠ qid → (s.nodes src).state.liveOut edgeType qid = false) ∧
    ((s.nodes qid).findReceipt requestId ≠ none ∨ logged = false →
      ∀ edgeType dst, (s.nodes qid).state.liveOut edgeType dst = false)
  | .commitItem qid operations eventTime _ logged =>
    (s.nodes qid).findReceipt s.nextRequestId = none ∧
      (logged → (s.nodes qid).EdgesOk operations eventTime) ∧
      (logged = false → ∀ operation ∈ operations, ∀ tombstone, operation.1 ≠ .deleteNode tombstone)
  | .applySideEffects i => ∀ item ∈ s.pending[i]?, ∀ earlier ∈ s.pending.take i, earlier.1 ≠ item.1
  | .dropItem i => ∀ item ∈ s.pending[i]?, ∀ operation ∈ item.2, ∀ edgeType dst, operation.edgeWrites edgeType dst = none
  | .restart _ recovered _ => ∀ qid edgeType dst, (recovered qid).1.liveOut edgeType dst = false
  | _ => True

/-- With the changes that are still to come the index agrees with the nodes. -/
def EdgeInv (s : GraphService) : Prop :=
  ∀ src edgeType dst, lastWrite (edgeWrites edgeType dst) (s.indexes.edge.hasForward edgeType src dst)
    (operationsOf s.pending src) = (s.nodes src).state.liveOut edgeType dst

variable {s s' : GraphService} {qid : NexoraId} {logged : Bool}

theorem edgeInv_iff (hpending : s.pending = []) : s.EdgeInv ↔ s.EdgesAgree := by
  unfold EdgeInv EdgesAgree
  rw [hpending]
  exact ⟨fun h edgeType src dst => h src edgeType dst, fun h src edgeType dst => h edgeType src dst⟩

theorem edgeInv_new (clock : NexoraId → EventTime) : (new clock).EdgeInv := fun _ _ _ => rfl

theorem EdgeInv.congr (h : s.EdgeInv) (hpending : s'.pending = s.pending)
    (hedge : s'.indexes.edge = s.indexes.edge)
    (hstate : ∀ src edgeType dst, (s'.nodes src).state.liveOut edgeType dst = (s.nodes src).state.liveOut edgeType dst) :
    s'.EdgeInv := by
  intro src edgeType dst
  rw [hpending, hedge, hstate]
  exact h src edgeType dst

theorem liveOut_update (nodes : NexoraId → NodeTask) (qid : NexoraId) (task : NodeTask)
    (src : NexoraId) (edgeType : Symbol) (dst : NexoraId) :
    (Function.update nodes qid task src).state.liveOut edgeType dst =
      if src = qid then task.state.liveOut edgeType dst else (nodes src).state.liveOut edgeType dst := by
  rw [Function.update_apply]
  split <;> rfl

theorem liveOut_update_of_eq {nodes : NexoraId → NodeTask} {task : NodeTask}
    (h : ∀ edgeType dst, task.state.liveOut edgeType dst = (nodes qid).state.liveOut edgeType dst)
    (src : NexoraId) (edgeType : Symbol) (dst : NexoraId) :
    (Function.update nodes qid task src).state.liveOut edgeType dst = (nodes src).state.liveOut edgeType dst := by
  rw [liveOut_update]
  split
  · next hsrc => rw [h, hsrc]
  · rfl

variable {after : Indexes → Indexes} {requestId : Nat}
section
variable (h : s.EdgeInv)
include h

theorem EdgeInv.command (hpending : s.pending = []) (operation : MutationOp)
    (hok : logged → operation.EdgeOk (s.nodes qid).state) (hdelete : ∀ tombstone, operation ≠ .deleteNode tombstone)
    (hafter : ∀ edgeType src dst, (after s.indexes).edge.hasForward edgeType src dst =
      if src = qid then (operation.edgeWrites edgeType dst).getD (s.indexes.edge.hasForward edgeType src dst)
      else s.indexes.edge.hasForward edgeType src dst) : (s.command qid operation logged after).EdgeInv := by
  cases logged with
  | false =>
    exact h.congr rfl rfl (liveOut_update_of_eq fun _ _ => by rw [state_drafted_singleton hdelete])
  | true =>
    have hidle : (s.command qid operation true after).pending = [] := hpending
    refine (edgeInv_iff hidle).mpr fun edgeType src dst => ?_
    have hagree := (edgeInv_iff hpending).mp h edgeType src dst
    simp only [command, if_true]
    rw [hafter, liveOut_update, hagree]
    split
    · next hsrc =>
      rw [hsrc]
      exact (liveOut_apply (hok rfl) _).symm
    · rfl

theorem EdgeInv.mutate (operation : MutationOp)
    (hdelete : ∀ tombstone, operation ≠ .deleteNode tombstone)
    (hok : operation.EdgeOk (s.nodes qid).state)
    (hwrites : ∀ edgeType dst, operation.edgeWrites edgeType dst = none)
    (hafter : (after s.indexes).edge = s.indexes.edge) :
    (s.mutate qid ⟨requestId, [(operation, none)], none, true⟩ logged after).EdgeInv := by
  cases hfind : (s.nodes qid).findReceipt requestId with
  | some entry =>
    rw [mutate_of_remembered hfind]
    exact h.congr rfl hafter (liveOut_update_of_eq fun _ _ => rfl)
  | none =>
    cases logged with
    | false =>
      rw [mutate_of_refused hfind]
      exact h.congr rfl rfl (liveOut_update_of_eq fun _ _ => by rw [state_drafted_singleton hdelete])
    | true =>
      rw [mutate_of_logged hfind]
      refine h.congr rfl hafter (liveOut_update_of_eq fun edgeType dst => ?_)
      exact (liveOut_apply hok _).trans (by rw [hwrites, Option.getD_none])

theorem EdgeInv.deleteNode (hpending : s.pending = []) {tombstone : TombstoneRecord}
    (hok : s.EdgeStepOk (.deleteNode qid requestId tombstone logged)) :
    (s.deleteNode qid requestId tombstone logged).EdgeInv := by
  obtain ⟨hneighbours, hown⟩ := hok
  have hidle : (s.deleteNode qid requestId tombstone logged).pending = [] := hpending
  refine (edgeInv_iff hidle).mpr fun edgeType src dst => ?_
  have hagree := (edgeInv_iff hpending).mp h edgeType src dst
  unfold GraphService.deleteNode
  cases hfind : (s.nodes qid).findReceipt requestId with
  | some entry =>
    have hfound : (s.nodes qid).findReceipt requestId ≠ none := by
      rw [hfind]
      exact nofun
    rw [mutate_of_remembered hfind, hasForward_removeNode, liveOut_update, hagree]
    by_cases hsrc : src = qid
    · rw [if_pos hsrc, hsrc, hown (Or.inl hfound), Bool.and_false]
      exact (hown (Or.inl hfound) edgeType dst).symm
    · by_cases hdst : dst = qid
      · rw [if_neg hsrc, hdst, hneighbours (Or.inl hfound) src edgeType hsrc, Bool.and_false]
      · rw [if_neg hsrc, decide_eq_true ⟨hsrc, hdst⟩, Bool.true_and]
  | none =>
    cases logged with
    | false =>
      rw [mutate_of_refused hfind, liveOut_update, hagree]
      split
      · next hsrc =>
        rw [hsrc, hown (Or.inr rfl)]
        rfl
      · rfl
    | true =>
      rw [mutate_of_logged hfind, hasForward_removeNode, liveOut_update, hagree]
      by_cases hsrc : src = qid
      · rw [if_pos hsrc, decide_eq_false fun h => h.1 hsrc, Bool.false_and]
        rfl
      · by_cases hdst : dst = qid
        · rw [if_neg hsrc, hdst, hneighbours (Or.inr rfl) src edgeType hsrc, Bool.and_false]
        · rw [if_neg hsrc, decide_eq_true ⟨hsrc, hdst⟩, Bool.true_and]

theorem EdgeInv.commitItem {operations : List (MutationOp × Option EventTime)}
    {eventTime : Option EventTime} {awaitDurable : Bool}
    (hok : s.EdgeStepOk (.commitItem qid operations eventTime awaitDurable logged)) :
    (s.commitItem qid operations eventTime awaitDurable logged).EdgeInv := by
  obtain ⟨hnew, hoperations, hkept⟩ := hok
  cases logged with
  | false =>
    rw [commitItem_of_refused hnew]
    exact h.congr rfl rfl (liveOut_update_of_eq fun _ _ => by rw [state_drafted (hkept rfl)])
  | true =>
    rw [commitItem_of_logged hnew]
    intro src edgeType dst
    rw [operationsOf_append, operationsOf_cons, operationsOf_nil, append_nil, lastWrite_append, h src edgeType dst,
      liveOut_update]
    by_cases hsrc : src = qid
    · rw [if_pos hsrc, if_pos hsrc.symm, hsrc]
      exact (liveOut_draft (hoperations rfl)).symm
    · rw [if_neg hsrc, if_neg (Ne.symm hsrc)]
      rfl

theorem EdgeInv.applySideEffects (S : Serde) {i : Nat} (hok : s.EdgeStepOk (.applySideEffects i)) :
    (s.applySideEffects S i).EdgeInv := by
  unfold GraphService.applySideEffects
  split
  · exact h
  · next qid operations hitem =>
    intro src edgeType dst
    have hinv := h src edgeType dst
    have hsplit := eq_take_append_cons_drop hitem
    show lastWrite _ _ (operationsOf (s.pending.eraseIdx i) src) = _
    rw [hsplit, operationsOf_append, operationsOf_cons] at hinv
    rw [Indexes.hasForward_applyBatchSideEffects, eraseIdx_eq_take_drop_succ, operationsOf_append]
    by_cases hsrc : src = qid
    · have hfirst : operationsOf (s.pending.take i) src = [] :=
        operationsOf_of_forall_ne fun earlier hearlier => hsrc ▸ hok _ hitem earlier hearlier
      rw [hfirst, nil_append, if_pos hsrc.symm, lastWrite_append] at hinv
      rw [hfirst, nil_append, if_pos hsrc]
      exact hinv
    · rw [if_neg (Ne.symm hsrc), nil_append] at hinv
      rw [if_neg hsrc]
      exact hinv

theorem EdgeInv.dropItem {i : Nat} (hok : s.EdgeStepOk (.dropItem i)) :
    EdgeInv { s with pending := s.pending.eraseIdx i } := by
  intro src edgeType dst
  have hinv := h src edgeType dst
  cases hitem : s.pending[i]? with
  | none =>
    have hpending : s.pending.eraseIdx i = s.pending := eraseIdx_of_length_le (getElem?_eq_none_iff.mp hitem)
    show lastWrite _ _ (operationsOf (s.pending.eraseIdx i) src) = _
    rw [hpending]
    exact hinv
  | some item =>
    have hsplit := eq_take_append_cons_drop hitem
    have hdropped : ∀ bit, lastWrite (edgeWrites edgeType dst) bit (if item.1 = src then item.2 else []) = bit := by
      intro bit
      split
      · exact lastWrite_of_forall_getD fun operation hoperation =>
          by rw [hok item hitem operation hoperation, Option.getD_none]
      · rfl
    show lastWrite _ _ (operationsOf (s.pending.eraseIdx i) src) = _
    rw [hsplit, operationsOf_append, operationsOf_cons, lastWrite_append, lastWrite_append, hdropped] at hinv
    rw [eraseIdx_eq_take_drop_succ, operationsOf_append, lastWrite_append]
    exact hinv

theorem EdgeInv.step (S : Serde) {label : GraphStep} (hok : s.EdgeStepOk label) :
    (s.step S label).EdgeInv := by
  cases label with
  | setProperty qid key value logged =>
    exact whenIdle_of h fun hpending =>
      h.command hpending (.setProperty key value) (fun _ => trivial) nofun fun _ _ _ => (ite_self _).symm
  | removeProperty qid key logged =>
    exact whenIdle_of h fun hpending =>
      h.command hpending (.removeProperty key) (fun _ => trivial) nofun fun _ _ _ => (ite_self _).symm
  | addEdge qid edge logged =>
    exact whenIdle_of h fun hpending =>
      h.command hpending (.addEdge edge) hok nofun fun _ _ _ => hasForward_addHalfedge qid edge
  | removeEdge qid edge logged =>
    exact whenIdle_of h fun hpending =>
      h.command hpending (.removeEdge edge) hok nofun fun _ _ _ => hasForward_removeEdge qid edge
  | addLabel qid label requestId logged =>
    exact whenIdle_of h fun _ => h.mutate (.addLabel label) nofun trivial (fun _ _ => rfl) rfl
  | removeLabel qid label requestId logged =>
    exact whenIdle_of h fun _ => h.mutate (.removeLabel label) nofun trivial (fun _ _ => rfl) rfl
  | deleteNode qid requestId tombstone logged => exact whenIdle_of h fun hpending => h.deleteNode hpending hok
  | commitItem qid operations eventTime awaitDurable logged => exact h.commitItem hok
  | applySideEffects i => exact h.applySideEffects S hok
  | dropItem i => exact h.dropItem hok
  | queryPropertyIndex property value orders => exact h.congr rfl rfl fun _ _ _ => rfl
  | respawn qid now recoveredMaxEventTime => exact h.congr rfl rfl (liveOut_update_of_eq fun _ _ => rfl)
  | restart clock recovered persisted => exact fun src edgeType dst => (hok src edgeType dst).symm

end

/-- **The edge index agrees with the nodes** after every run whose steps all meet the condition,
once the last batch has returned. -/
theorem edgesAgree_of_along (S : Serde) (clock : NexoraId → EventTime) {steps : List GraphStep}
    (halong : Along (step S) EdgeStepOk (new clock) steps)
    (hreturned : (run (step S) (new clock) steps).pending = []) :
    (run (step S) (new clock) steps).EdgesAgree := by
  have hstep : ∀ (s : GraphService) (label : GraphStep), s.EdgeInv → s.EdgeStepOk label →
      (s.step S label).EdgeInv :=
    fun s label h hok => h.step S hok
  exact (edgeInv_iff hreturned).mp (run_invariant hstep (edgeInv_new clock) halong)

/-- Two nodes know each other; one is not to be known any more, and then the other forgets the
one. -/
theorem edgesAgree_two_nodes : (run (step (sampleLibraries [])) (new fun _ => 10)
      [.addEdge ⟨[1]⟩ ⟨"KNOWS", .out, ⟨[2]⟩⟩ true, .addEdge ⟨[2]⟩ ⟨"KNOWS", .incoming, ⟨[1]⟩⟩ true,
        .removeEdge ⟨[2]⟩ ⟨"KNOWS", .incoming, ⟨[1]⟩⟩ true,
          .removeEdge ⟨[1]⟩ ⟨"KNOWS", .out, ⟨[2]⟩⟩ true]).EdgesAgree := by
  have halong : Along (step (sampleLibraries [])) EdgeStepOk (new fun _ => 10)
      [.addEdge ⟨[1]⟩ ⟨"KNOWS", .out, ⟨[2]⟩⟩ true, .addEdge ⟨[2]⟩ ⟨"KNOWS", .incoming, ⟨[1]⟩⟩ true,
        .removeEdge ⟨[2]⟩ ⟨"KNOWS", .incoming, ⟨[1]⟩⟩ true, .removeEdge ⟨[1]⟩ ⟨"KNOWS", .out, ⟨[2]⟩⟩ true] :=
    ⟨fun _ _ => rfl, fun _ h => absurd h (by decide), fun _ _ => by decide, fun _ h => absurd h (by decide), trivial⟩
  exact edgesAgree_of_along _ _ halong rfl

/-- The half-edge by which node 2 knows node 1 is removed from node 1, and with it the pair of the
other direction goes from the index. -/
theorem edge_lost_from_index :
    let s := run (step (sampleLibraries [])) (new fun _ => 10)
      [.addEdge ⟨[1]⟩ ⟨"KNOWS", .out, ⟨[2]⟩⟩ true, .addEdge ⟨[1]⟩ ⟨"KNOWS", .incoming, ⟨[2]⟩⟩ true,
        .removeEdge ⟨[1]⟩ ⟨"KNOWS", .incoming, ⟨[2]⟩⟩ true]
    s.pending = [] ∧ ¬ s.EdgesAgree :=
  ⟨rfl, fun h => absurd (h "KNOWS" ⟨[1]⟩ ⟨[2]⟩) (by decide)⟩

end GraphService

/-! ### The two sides of the index -/

namespace EdgeIndex

inductive Call where
  | addEdge (edgeType : Symbol) (src dst : NexoraId)
  | addHalfedge (owner : NexoraId) (edge : HalfEdge)
  | removeEdge (edgeType : Symbol) (src dst : NexoraId)
  | removeNode (qid : NexoraId)
  | clear

def step (index : EdgeIndex) : Call → EdgeIndex
  | .addEdge edgeType src dst => index.addEdge edgeType src dst
  | .addHalfedge owner edge => index.addHalfedge owner edge
  | .removeEdge edgeType src dst => index.removeEdge edgeType src dst
  | .removeNode qid => index.removeNode qid
  | .clear => new

/-- The number of edge types and of edges. -/
def stats (index : EdgeIndex) : Nat × Nat :=
  (index.forward.rows.length, (index.forward.rows.map fun row => row.2.card).sum)

/-- What a call does to the set of all edges. -/
def edit (edges : Finset (Symbol × EdgeTuple)) : Call → Finset (Symbol × EdgeTuple)
  | .addEdge edgeType src dst => insert (edgeType, ⟨src, dst⟩) edges
  | .addHalfedge owner edge => if edge.direction = .out then insert (edge.edgeType, ⟨owner, edge.other⟩) edges else edges
  | .removeEdge edgeType src dst => edges.erase (edgeType, ⟨src, dst⟩)
  | .removeNode qid => edges.filter fun edge => edge.2.src ≠ qid ∧ edge.2.dst ≠ qid
  | .clear => ∅

structure Mirrors (index : EdgeIndex) (edges : Finset (Symbol × EdgeTuple)) : Prop where
  forward : ∀ edgeType tuple, tuple ∈ index.forward.bucket edgeType ↔ (edgeType, tuple) ∈ edges
  reverse : ∀ edgeType src dst, ⟨dst, src⟩ ∈ index.reverse.bucket edgeType ↔
    (edgeType, ⟨src, dst⟩) ∈ edges
  noEmpty : index.forward.NoEmpty
  noEmpty_reverse : index.reverse.NoEmpty

theorem mirrors_new : new.Mirrors ∅ := by
  constructor <;> simp [new, Buckets.bucket, Buckets.NoEmpty, Table.find?_empty]

section
variable {index : EdgeIndex} {edges : Finset (Symbol × EdgeTuple)} (h : index.Mirrors edges)
include h

theorem Mirrors.addEdge (edgeType : Symbol) (src dst : NexoraId) :
    (index.addEdge edgeType src dst).Mirrors (insert (edgeType, ⟨src, dst⟩) edges) := by
  refine ⟨fun t tuple => ?_, fun t s d => ?_, h.noEmpty.add _ _, h.noEmpty_reverse.add _ _⟩
  · simp [EdgeIndex.addEdge, h.forward]
  · simp [EdgeIndex.addEdge, h.reverse, And.comm]

theorem Mirrors.step (call : Call) : (index.step call).Mirrors (edit edges call) := by
  cases call with
  | addEdge edgeType src dst => exact h.addEdge edgeType src dst
  | addHalfedge owner edge =>
    simp only [EdgeIndex.step, addHalfedge, edit]
    split
    · exact h.addEdge edge.edgeType owner edge.other
    · exact h
  | removeEdge edgeType src dst =>
    refine ⟨fun t tuple => ?_, fun t s d => ?_, h.noEmpty.remove _ _, h.noEmpty_reverse.remove _ _⟩
    · simp [EdgeIndex.step, removeEdge, edit, h.forward]
    · simp [EdgeIndex.step, removeEdge, edit, h.reverse, And.comm]
  | removeNode qid =>
    refine ⟨fun t tuple => ?_, fun t s d => ?_, Buckets.noEmpty_retain _, Buckets.noEmpty_retain _⟩
    · simp [EdgeIndex.step, removeNode, edit, h.forward, And.comm]
    · simp [EdgeIndex.step, removeNode, edit, h.reverse, And.comm]
  | clear => exact mirrors_new

end

/-- **The two sides of the edge index mirror each other**, no set is empty, and the statistics count
the edges. -/
theorem mirrors_run (calls : List Call) :
    (∀ edgeType src dst, ⟨src, dst⟩ ∈ (run step new calls).forward.bucket edgeType ↔
      ⟨dst, src⟩ ∈ (run step new calls).reverse.bucket edgeType) ∧
    (run step new calls).forward.NoEmpty ∧ (run step new calls).reverse.NoEmpty ∧
    (run step new calls).stats = (((run edit ∅ calls).image Prod.fst).card, (run edit ∅ calls).card) := by
  have h : (run step new calls).Mirrors (run edit ∅ calls) := by
    induction calls using reverseRecOn with
    | nil => exact mirrors_new
    | append_singleton calls call ih =>
      rw [run_append, run_append]
      exact ih.step call
  obtain ⟨htypes, hedges⟩ := Buckets.counts h.noEmpty h.forward
  refine ⟨fun edgeType src dst => ?_, h.noEmpty, h.noEmpty_reverse, Prod.ext htypes hedges⟩
  rw [h.forward, h.reverse]

end EdgeIndex
end Nexora
