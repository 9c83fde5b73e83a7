import Nexora.Graph.Dedup
import Nexora.Lib.Buckets

/-!
# The label index

`add_label` and `remove_label` first commit at the node and then change the index
(`label_index.rs`). Calls that run at the same time may change the index in another order than they
have committed in. Each side holds what was written to it last.
-/

namespace Nexora
open Lib MutationOp List

abbrev LabelIndex := Buckets Symbol NexoraId

namespace LabelIndex

def nodes (index : LabelIndex) (label : Symbol) : Finset NexoraId := index.bucket label

def addLabel (index : LabelIndex) (label : Symbol) (qid : NexoraId) : LabelIndex :=
  index.add label qid

def removeLabel (index : LabelIndex) (label : Symbol) (qid : NexoraId) : LabelIndex :=
  index.remove label qid

end LabelIndex

/-! ### Calls that run at the same time -/

inductive LabelAction where
  | add
  | remove
deriving DecidableEq

structure LabelCall where
  action : LabelAction
  requestId : Nat

def LabelCall.request (label : Symbol) (call : LabelCall) : MutationRequest :=
  match call.action with
  | .add => ⟨call.requestId, [(.addLabel label, none)], none, true⟩
  | .remove => ⟨call.requestId, [(.removeLabel label, none)], none, true⟩

def LabelCall.updateIndex (label : Symbol) (qid : NexoraId) (call : LabelCall)
    (index : LabelIndex) : LabelIndex :=
  match call.action with
  | .add => index.addLabel label qid
  | .remove => index.removeLabel label qid

/-- Calls for one label of one node: `awaiting` have committed and not yet changed the index.
`commits` and `updates` are the history of both steps. -/
structure LabelRace where
  task : NodeTask
  index : LabelIndex
  awaiting : List LabelCall
  commits : List (LabelCall × Answer)
  updates : List LabelCall

inductive LabelRaceStep where
  | commit (call : LabelCall) (logged : Bool)
  | update (i : Nat)

namespace LabelRace

def init (task : NodeTask) (index : LabelIndex) : LabelRace := ⟨task, index, [], [], []⟩

/-- A call whose commit fails returns without a change of the index. -/
def step (qid : NexoraId) (label : Symbol) (s : LabelRace) : LabelRaceStep → LabelRace
  | .commit call logged =>
    let result := s.task.answerMutate (call.request label) logged
    { s with
      task := result.1
      awaiting := if result.2 = .failed then s.awaiting else s.awaiting ++ [call]
      commits := s.commits ++ [(call, result.2)] }
  | .update i =>
    match s.awaiting[i]? with
    | none => s
    | some call =>
      { s with
        index := call.updateIndex label qid s.index
        awaiting := s.awaiting.eraseIdx i
        updates := s.updates ++ [call] }

def Agrees (qid : NexoraId) (label : Symbol) (s : LabelRace) : Prop :=
  qid ∈ s.index.nodes label ↔ label ∈ s.task.state.labels

def commitWrites (commit : LabelCall × Answer) : Option Bool :=
  match commit.2 with
  | .applied _ => some (commit.1.action = .add)
  | _ => none

def updateWrites (call : LabelCall) : Option Bool := some (call.action = .add)

/-! ### What is written last -/

section
variable (task : NodeTask) (call : LabelCall) (label : Symbol)

theorem mem_labels_draft :
    label ∈ (task.draft (call.request label).operations
      (call.request label).eventTime).next.labels ↔
      call.action = .add := by
  obtain ⟨action, requestId⟩ := call
  cases action with
  | add =>
    refine iff_of_true ?_ rfl
    show label ∈ ((addLabel label).apply task.state _).1.labels
    rw [fst_apply_addLabel]
    exact Finset.mem_insert_self _ _
  | remove =>
    refine iff_of_false ?_ nofun
    show label ∉ ((removeLabel label).apply task.state _).1.labels
    rw [fst_apply_removeLabel]
    exact Finset.notMem_erase _ _

theorem mem_labels_answerMutate (logged : Bool) :
    decide (label ∈ (task.answerMutate (call.request label) logged).1.state.labels) =
      (commitWrites (call, (task.answerMutate (call.request label) logged).2)).getD
        (decide (label ∈ task.state.labels)) := by
  rcases task.answerMutate_cases (call.request label) logged with ⟨entry, -, hanswer⟩ | ⟨-, hanswer⟩ | ⟨-, hanswer⟩
  · rw [hanswer]
    rfl
  · rw [hanswer]
    exact decide_eq_decide.mpr (mem_labels_draft task call label)
  · rw [hanswer]
    rfl

end

theorem mem_nodes_updateIndex (call : LabelCall) (label : Symbol) (qid : NexoraId)
    (index : LabelIndex) :
    qid ∈ (call.updateIndex label qid index).nodes label ↔ call.action = .add := by
  unfold LabelCall.updateIndex
  cases call.action with
  | add => exact iff_of_true (Buckets.mem_bucket_add.mpr (Or.inl ⟨rfl, rfl⟩)) rfl
  | remove => exact iff_of_false (fun hmem => (Buckets.mem_bucket_remove.mp hmem).1 ⟨rfl, rfl⟩) nofun

structure Inv (qid : NexoraId) (label : Symbol) (s start : LabelRace) : Prop where
  task : decide (label ∈ s.task.state.labels) = lastWrite commitWrites (decide (label ∈ start.task.state.labels)) s.commits
  index : decide (qid ∈ s.index.nodes label) = lastWrite updateWrites (decide (qid ∈ start.index.nodes label)) s.updates

variable {qid : NexoraId} {label : Symbol}
variable {s : LabelRace} {initial : Bool}

theorem Inv.step {start : LabelRace} (h : s.Inv qid label start)
    (racing : LabelRaceStep) : (s.step qid label racing).Inv qid label start := by
  cases racing with
  | commit call logged =>
    refine ⟨?_, h.index⟩
    simp only [LabelRace.step]
    rw [lastWrite_append_singleton, ← h.task]
    exact mem_labels_answerMutate s.task call label logged
  | update i =>
    simp only [LabelRace.step]
    split
    · exact h
    · next call _ =>
      refine ⟨h.task, ?_⟩
      rw [lastWrite_append_singleton]
      exact decide_eq_decide.mpr (mem_nodes_updateIndex call label qid s.index)

/-- **Index and node agree** after any interleaving exactly when the last commit that was applied
and the last change of the index are of one kind, where a side without either is as it was. -/
theorem agrees_run_iff (qid : NexoraId) (label : Symbol) (task : NodeTask) (index : LabelIndex)
    (steps : List LabelRaceStep) :
    (run (step qid label) (init task index) steps).Agrees qid label ↔
      lastWrite updateWrites (decide (qid ∈ index.nodes label)) (run (step qid label) (init task index) steps).updates =
        lastWrite commitWrites (decide (label ∈ task.state.labels))
        (run (step qid label) (init task index) steps).commits := by
  have hinit : (init task index).Inv qid label (init task index) := ⟨rfl, rfl⟩
  have hinv := run_preserves (fun (s : LabelRace) racing (h : s.Inv qid label (init task index)) => h.step racing) hinit steps
  have hsides := congrArg₂ Eq hinv.index hinv.task
  exact decide_eq_decide.symm.trans (iff_of_eq hsides)

/-! ### Once all calls have returned -/

/-- A commit that the node does not answer from its cache, and a change of the index that overtakes
no call of the other kind. -/
def StepOk (s : LabelRace) : LabelRaceStep → Prop
  | .commit call _ => s.task.findReceipt call.requestId = none
  | .update i => ∀ call ∈ s.awaiting[i]?, ∀ earlier ∈ s.awaiting.take i, earlier.action = call.action

/-- The changes of the index that are still to come make up for the commits that are ahead of it. -/
def InOrder (initial : Bool) (s : LabelRace) : Prop :=
  lastWrite updateWrites initial (s.updates ++ s.awaiting) = lastWrite commitWrites initial s.commits

theorem inOrder_commit (h : s.InOrder initial)
    {call : LabelCall} (hnew : s.task.findReceipt call.requestId = none) (logged : Bool) :
    (s.step qid label (.commit call logged)).InOrder initial := by
  have hid : (call.request label).requestId = call.requestId := by
    unfold LabelCall.request
    cases call.action <;> rfl
  simp only [step, InOrder]
  rcases s.task.answerMutate_cases (call.request label) logged with ⟨entry, hfound, -⟩ | ⟨-, hanswer⟩ | ⟨-, hanswer⟩
  · rw [hid, hnew] at hfound
    exact absurd hfound nofun
  · rw [hanswer, lastWrite_append_singleton, if_neg nofun, ← append_assoc, lastWrite_append_singleton]
    rfl
  · rw [hanswer, lastWrite_append_singleton, if_pos rfl]
    exact h

theorem inOrder_update (h : s.InOrder initial) {i : Nat}
    (hsame : ∀ call ∈ s.awaiting[i]?, ∀ earlier ∈ s.awaiting.take i, earlier.action = call.action) :
    (s.step qid label (.update i)).InOrder initial := by
  simp only [step]
  split
  · exact h
  · next call hcall =>
    have hawaiting := eq_take_append_cons_drop hcall
    have hwrites : updateWrites call = some (decide (call.action = .add)) := rfl
    have hovertakes : ∀ earlier ∈ s.awaiting.take i, updateWrites earlier = updateWrites call := by
      intro earlier hearlier
      rw [updateWrites, updateWrites, hsame call hcall earlier hearlier]
    calc lastWrite updateWrites initial (s.updates ++ [call] ++ s.awaiting.eraseIdx i)
        = lastWrite updateWrites initial (s.updates ++ call :: (s.awaiting.take i ++ s.awaiting.drop (i + 1))) := by
          rw [eraseIdx_eq_take_drop_succ, append_assoc, singleton_append]
      _ = lastWrite updateWrites initial (s.updates ++ s.awaiting) := by
          simp [lastWrite_append, lastWrite_cons_append hwrites hovertakes, ← hawaiting]
      _ = lastWrite commitWrites initial s.commits := h

theorem InOrder.step (h : s.InOrder initial) {racing : LabelRaceStep} (hok : s.StepOk racing) :
    (s.step qid label racing).InOrder initial := by
  cases racing with
  | commit call logged => exact inOrder_commit h hok logged
  | update i => exact inOrder_update h hok

/-- **Agreement at quiescence.** Where no commit is answered from the node's cache and the index is
changed in the order of the commits, calls of one kind apart, index and node agree once all calls
have returned. -/
theorem agrees_of_along {qid : NexoraId} {label : Symbol} {task : NodeTask} {index : LabelIndex}
    (hstart : (init task index).Agrees qid label) {steps : List LabelRaceStep}
    (halong : Along (step qid label) StepOk (init task index) steps)
    (hreturned : (run (step qid label) (init task index) steps).awaiting = []) :
    (run (step qid label) (init task index) steps).Agrees qid label := by
  have hsame : decide (qid ∈ index.nodes label) = decide (label ∈ task.state.labels) :=
    decide_eq_decide.mpr hstart
  have hinit : (init task index).InOrder (decide (label ∈ task.state.labels)) := rfl
  have horder := run_invariant
    (fun (s : LabelRace) racing (h : s.InOrder (decide (label ∈ task.state.labels))) hok => h.step hok) hinit halong
  rw [InOrder, hreturned, append_nil] at horder
  rw [agrees_run_iff, hsame]
  exact horder

/-- An addition and a removal whose commits overlap change the index in the order they committed
in. -/
theorem agrees_overlapping :
    (run (step ⟨[1]⟩ "A") (init (.spawnWithFullState 10 .empty none) .empty)
      [.commit ⟨.add, 1⟩ true, .commit ⟨.remove, 2⟩ true, .update 0, .update 0]).Agrees ⟨[1]⟩ "A" := by
  have hstart : (init (.spawnWithFullState 10 .empty none) .empty).Agrees ⟨[1]⟩ "A" :=
    iff_of_false (by decide) (by decide)
  have halong : Along (step ⟨[1]⟩ "A") StepOk (init (.spawnWithFullState 10 .empty none) .empty)
      [.commit ⟨.add, 1⟩ true, .commit ⟨.remove, 2⟩ true, .update 0, .update 0] := by
    refine ⟨rfl, rfl, ?_, ?_, trivial⟩ <;> exact fun _ _ _ hearlier => absurd hearlier not_mem_nil
  exact agrees_of_along hstart halong rfl

/-- Two calls commit one after the other and change the index in the other order: once both have
returned, the index has a label that the node has not. -/
theorem label_left_in_index :
    let s := run (step ⟨[1]⟩ "A") (init (.spawnWithFullState 10 .empty none) .empty)
      [.commit ⟨.add, 1⟩ true, .commit ⟨.remove, 2⟩ true, .update 1, .update 0]
    s.awaiting.length = 0 ∧ ¬ s.Agrees ⟨[1]⟩ "A" := by
  refine ⟨by decide, fun h => ?_⟩
  exact absurd (h.mp (by decide)) (by decide)

end LabelRace
end Nexora
