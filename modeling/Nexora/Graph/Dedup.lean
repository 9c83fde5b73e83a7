import Nexora.Graph.Shard
import Nexora.Wal.CodecRoundTrip
import Nexora.Lib.Recent

/-!
# Retried requests

A task remembers the receipts of the requests it has answered, in the order of their last use
(`handle_mutate`). When the memory is full the older half is dropped, and a node that has slept
wakes without it.
-/

namespace Nexora
open Lib NodeTask
open List hiding beq_eq_decide

/-- How a `Mutate` is answered: the operations have been applied, the receipt of an earlier request
is returned, or the log has not taken the record. -/
inductive Answer where
  | applied (receipt : CommitReceipt)
  | cached (receipt : CommitReceipt)
  | failed
deriving DecidableEq

namespace NodeTask
variable {task : NodeTask} {requestId : Nat} {entry : (Nat × Nat) × CommitReceipt}
    {receipt : CommitReceipt}

def answerMutate (task : NodeTask) (request : MutationRequest) (logged : Bool) :
    NodeTask × Answer :=
  match task.findReceipt request.requestId with
  | some entry => (task.refreshReceipt request.requestId entry, .cached entry.2)
  | none =>
    let d := task.draft request.operations request.eventTime
    if logged then ((task.install d).rememberReceipt request.requestId (task.receipt d), .applied (task.receipt d))
    else (task.drafted d, .failed)

theorem answerMutate_cases (task : NodeTask) (request : MutationRequest) (logged : Bool) :
    let d := task.draft request.operations request.eventTime
    (∃ entry, task.findReceipt request.requestId = some entry ∧
      task.answerMutate request logged = (task.refreshReceipt request.requestId entry, .cached entry.2)) ∨
    (task.findReceipt request.requestId = none ∧ task.answerMutate request logged =
      ((task.install d).rememberReceipt request.requestId (task.receipt d), .applied (task.receipt d))) ∨
    (task.findReceipt request.requestId = none ∧ task.answerMutate request logged = (task.drafted d, .failed)) := by
  unfold answerMutate
  cases hfind : task.findReceipt request.requestId with
  | some entry => exact Or.inl ⟨entry, rfl, rfl⟩
  | none =>
    cases logged with
    | true => exact Or.inr (Or.inl ⟨rfl, rfl⟩)
    | false => exact Or.inr (Or.inr ⟨rfl, rfl⟩)

/-! ### The memory of a task -/

def cachedIds (task : NodeTask) : List Nat := task.dedupCache.map fun entry => entry.1.2

theorem mem_of_findReceipt (h : task.findReceipt requestId = some entry) :
    entry ∈ task.dedupCache ∧ entry.1.2 = requestId :=
  ⟨mem_of_find?_eq_some h, by simpa using find?_some h⟩

theorem not_mem_cachedIds_of_findReceipt (h : task.findReceipt requestId = none) :
    requestId ∉ task.cachedIds := by
  intro hmem
  obtain ⟨entry, hentry, hid⟩ := mem_map.mp hmem
  have hnot := find?_eq_none.mp h entry hentry
  exact hnot (by simpa using hid)

theorem cachedIds_refreshReceipt (hnodup : task.cachedIds.Nodup)
    (h : task.findReceipt requestId = some entry) :
    (task.refreshReceipt requestId entry).cachedIds = touch requestId task.cachedIds := by
  obtain ⟨hentry, rfl⟩ := mem_of_findReceipt h
  have hfilter : (task.dedupCache.filter fun other => decide (other.1 ≠ entry.1)) =
      task.dedupCache.filter fun other => decide (other.1.2 ≠ entry.1.2) := by
    refine filter_congr fun other hother => decide_eq_decide.mpr (not_congr ⟨fun heq => heq ▸ rfl, fun heq => ?_⟩)
    rw [inj_on_of_nodup_map hnodup hother hentry heq]
  rw [touch, List.Nodup.erase_eq_filter hnodup]
  simp only [cachedIds, refreshReceipt, hfilter, map_append, map_singleton, filter_map]
  congr 2
  refine filter_congr fun other _ => ?_
  rw [Function.comp_apply, bne, decide_not, beq_eq_decide]

theorem cachedIds_rememberReceipt (task : NodeTask) (requestId : Nat) (receipt : CommitReceipt) :
    (task.rememberReceipt requestId receipt).cachedIds =
      if dedupCapacity < (task.cachedIds ++ [requestId]).length then
        (task.cachedIds ++ [requestId]).drop ((task.cachedIds ++ [requestId]).length / 2)
      else task.cachedIds ++ [requestId] := by
  simp only [cachedIds, rememberReceipt, length_append, length_map, length_singleton]
  split <;> simp

variable {other : (Nat × Nat) × CommitReceipt}

theorem mem_of_mem_refreshReceipt (h : other ∈ (task.refreshReceipt requestId entry).dedupCache) :
    other ∈ task.dedupCache ∨ other.1.2 = requestId ∧ other.2 = entry.2 := by
  rcases mem_append.mp h with h | h
  · exact Or.inl (mem_filter.mp h).1
  · rw [mem_singleton.mp h]
    exact Or.inr ⟨rfl, rfl⟩

theorem mem_of_mem_rememberReceipt
    (h : other ∈ (task.rememberReceipt requestId receipt).dedupCache) :
    other ∈ task.dedupCache ∨ other.1.2 = requestId ∧ other.2 = receipt := by
  have hmem : other ∈ task.dedupCache ++ [((task.dedupAccessCounter + 1, requestId), receipt)] := by
    simp only [rememberReceipt] at h
    split at h
    · exact mem_of_mem_drop h
    · exact h
  rcases mem_append.mp hmem with hmem | hmem
  · exact Or.inl hmem
  · rw [mem_singleton.mp hmem]
    exact Or.inr ⟨rfl, rfl⟩

/-- The requests that are certain to be remembered, if no other is used after them. -/
def keptIds : Nat := dedupCapacity / 2 + 1

theorem keepsRecent_rememberReceipt {recent : List Nat}
    (h : KeepsRecent keptIds task.cachedIds recent) (hnew : requestId ∉ task.cachedIds)
    (receipt : CommitReceipt) :
    KeepsRecent keptIds (task.rememberReceipt requestId receipt).cachedIds (touch requestId recent) := by
  rw [cachedIds_rememberReceipt]
  split
  · next hfull =>
    apply (h.miss hnew).drop
    simp only [keptIds, dedupCapacity] at hfull ⊢
    omega
  · exact h.miss hnew

end NodeTask

/-! ### The life of one node -/

/-- One node with its store. `answers` is the history of its answers to requests, and `recent` the
requests it has answered since it was woken, in the order of their last use. -/
structure NodeLife where
  store : NodeStore
  task : Option NodeTask
  answers : List (Nat × Answer)
  recent : List Nat

/-- What may happen to the node. Commands other than `Mutate` carry no request. -/
inductive NodeLifeStep where
  | mutate (request : MutationRequest) (logged : Bool)
  | command (operation : MutationOp) (logged : Bool)
  | drainJournal
  | sleep (now : EventTime)
  | wake (now : EventTime)

namespace NodeLife

def init (store : NodeStore) : NodeLife := ⟨store, none, [], []⟩

/-- Commands reach a task that runs; a node that sleeps is woken first. -/
def step (S : Serde) (codec : SnapshotCodec) (qid : NexoraId) (s : NodeLife) :
    NodeLifeStep → NodeLife
  | .mutate request logged =>
    match s.task with
    | none => s
    | some task =>
      let result := task.answerMutate request logged
      { s with
        task := some result.1
        answers := s.answers ++ [(request.requestId, result.2)]
        recent := if result.2 = .failed then s.recent else touch request.requestId s.recent }
  | .command operation logged =>
    { s with
      task := s.task.map fun task =>
        let d := task.draft [(operation, none)] none
        if logged then task.install d else task.drafted d }
  | .drainJournal => { s with task := s.task.map fun task => { task with journal := [] } }
  | .sleep now =>
    match s.task with
    | none => s
    | some task =>
      match sleepNode S codec s.store qid task now with
      | (store, .ok ()) => { s with store := store, task := none }
      | (store, .error _) => { s with store := store }
  | .wake now =>
    match s.task, wakeNode S codec s.store qid now with
    | none, .ok task => { s with task := some task, recent := [] }
    | _, _ => s

/-- A request that has been applied is afterwards answered with its receipt. -/
def AtMostOnce (answers : List (Nat × Answer)) : Prop :=
  answers.Pairwise fun a b => ∀ receipt, a.2 = .applied receipt → b.1 = a.1 → b.2 = .cached receipt

/-- A request that has been applied is retried while it is among the most recent requests since the
node was woken. -/
def StepOk (s : NodeLife) : NodeLifeStep → Prop
  | .mutate request _ =>
    ∀ receipt, (request.requestId, Answer.applied receipt) ∈ s.answers → s.task.isSome →
      request.requestId ∈ s.recent.rtake NodeTask.keptIds
  | _ => True

/-! ### One step -/

variable {answers : List (Nat × Answer)} {requestId : Nat}

theorem AtMostOnce.eq_of_applied (h : AtMostOnce answers)
    {receipt receipt' : CommitReceipt} (hmem : (requestId, Answer.applied receipt) ∈ answers)
    (hmem' : (requestId, Answer.applied receipt') ∈ answers) : receipt = receipt' := by
  induction answers with
  | nil => exact absurd hmem not_mem_nil
  | cons first answers ih =>
    obtain ⟨hfirst, hrest⟩ := pairwise_cons.mp h
    rcases mem_cons.mp hmem with rfl | hmem <;> rcases mem_cons.mp hmem' with heq | hmem'
    · cases heq
      rfl
    · have hcached := hfirst _ hmem' receipt rfl rfl
      cases hcached
    · have hcached := hfirst _ hmem receipt' (heq ▸ rfl) (heq ▸ rfl)
      cases hcached
    · exact ih hrest hmem hmem'

theorem AtMostOnce.append (h : AtMostOnce answers) {answer : Answer}
    (hanswer : ∀ receipt, (requestId, Answer.applied receipt) ∈ answers → answer = .cached receipt) :
    AtMostOnce (answers ++ [(requestId, answer)]) := by
  refine pairwise_append.mpr ⟨h, pairwise_singleton _ _, fun a ha b hb receipt happlied hid => ?_⟩
  rw [mem_singleton] at hb
  subst hb
  apply hanswer
  rw [show requestId = a.1 from hid, ← happlied]
  exact ha

structure Inv (s : NodeLife) : Prop where
  once : AtMostOnce s.answers
  kept : ∀ task, s.task = some task → KeepsRecent NodeTask.keptIds task.cachedIds s.recent
  receipts : ∀ task, s.task = some task → ∀ entry ∈ task.dedupCache, (entry.1.2, Answer.applied entry.2) ∈ s.answers

theorem inv_init (store : NodeStore) : (init store).Inv :=
  ⟨List.Pairwise.nil, fun _ h => (nomatch h), fun _ h => (nomatch h)⟩

variable {S : Serde} {codec : SnapshotCodec} {qid : NexoraId} {s : NodeLife}

theorem Inv.of_cache (h : s.Inv) {s' : NodeLife} (hanswers : s'.answers = s.answers)
    (hrecent : s'.recent = s.recent)
    (htask : ∀ task', s'.task = some task' → ∃ task, s.task = some task ∧ task'.dedupCache = task.dedupCache) :
    s'.Inv := by
  refine ⟨hanswers ▸ h.once, fun task' htask' => ?_, fun task' htask' => ?_⟩
  · obtain ⟨task, hs, hcache⟩ := htask task' htask'
    rw [hrecent, cachedIds, hcache]
    exact h.kept task hs
  · obtain ⟨task, hs, hcache⟩ := htask task' htask'
    rw [hanswers, hcache]
    exact h.receipts task hs

/-- **A request.** One that is remembered returns the receipt of its application; any other has
never been applied. -/
theorem Inv.mutate (h : s.Inv) {request : MutationRequest} {logged : Bool}
    (hok : s.StepOk (.mutate request logged)) :
    (s.step S codec qid (.mutate request logged)).Inv := by
  cases htask : s.task with
  | none =>
    simp only [step, htask]
    exact h
  | some task =>
    have hkept := h.kept task htask
    have hreceipts := h.receipts task htask
    have hnever : task.findReceipt request.requestId = none →
        ∀ receipt, (request.requestId, Answer.applied receipt) ∉ s.answers := fun hfind receipt hreceipt =>
      not_mem_cachedIds_of_findReceipt hfind (hkept.mem (hok receipt hreceipt (by rw [htask]; rfl)))
    rcases task.answerMutate_cases request logged with ⟨entry, hfind, hanswer⟩ | ⟨hfind, hanswer⟩ | ⟨hfind, hanswer⟩ <;>
      simp [step, htask, hanswer]
    · obtain ⟨hentry, hid⟩ := mem_of_findReceipt hfind
      have hmem : (request.requestId, Answer.applied entry.2) ∈ s.answers := hid ▸ hreceipts entry hentry
      have hhit : request.requestId ∈ task.cachedIds := mem_map.mpr ⟨entry, hentry, hid⟩
      refine ⟨h.once.append fun receipt hreceipt => ?_, fun task' htask' => ?_, fun task' htask' other hother => ?_⟩
      · rw [h.once.eq_of_applied hmem hreceipt]
      · cases htask'
        rw [cachedIds_refreshReceipt hkept.nodup_cache hfind]
        exact hkept.hit hhit
      · cases htask'
        rcases mem_of_mem_refreshReceipt hother with hother | ⟨hotherId, hotherReceipt⟩
        · exact mem_append_left _ (hreceipts other hother)
        · rw [hotherId, hotherReceipt]
          exact mem_append_left _ hmem
    · refine ⟨h.once.append fun receipt hreceipt => absurd hreceipt (hnever hfind receipt), fun task' htask' => ?_,
        fun task' htask' other hother => ?_⟩
      · cases htask'
        exact keepsRecent_rememberReceipt hkept (not_mem_cachedIds_of_findReceipt hfind) _
      · cases htask'
        rcases mem_of_mem_rememberReceipt hother with hother | ⟨hotherId, hotherReceipt⟩
        · exact mem_append_left _ (hreceipts other hother)
        · rw [hotherId, hotherReceipt]
          exact mem_append_right _ (mem_singleton_self _)
    · refine ⟨h.once.append fun receipt hreceipt => absurd hreceipt (hnever hfind receipt), fun task' htask' => ?_,
        fun task' htask' other hother => ?_⟩
      · cases htask'
        exact hkept
      · cases htask'
        exact mem_append_left _ (hreceipts other hother)

theorem Inv.sleep (h : s.Inv) (now : EventTime) : (s.step S codec qid (.sleep now)).Inv := by
  cases htask : s.task with
  | none =>
    simp only [step, htask]
    exact h
  | some task =>
    simp only [step, htask]
    split
    · exact h.of_cache rfl rfl fun task' htask' => nomatch htask'
    · refine h.of_cache rfl rfl fun task' htask' => ?_
      cases htask'
      exact ⟨task, htask, rfl⟩

theorem dedupCache_of_wakeNode {st : NodeStore} {now : EventTime} {task : NodeTask}
    (h : wakeNode S codec st qid now = .ok task) : task.dedupCache = [] := by
  unfold wakeNode at h
  split at h
  · cases h
  · split at h
    · cases h
    · split at h <;> cases h
      rfl

theorem Inv.wake (h : s.Inv) (now : EventTime) : (s.step S codec qid (.wake now)).Inv := by
  simp only [step]
  split
  · next task _ hwake =>
    have hcache := dedupCache_of_wakeNode hwake
    refine ⟨h.once, fun task' htask' => ?_, fun task' htask' entry hentry => ?_⟩
    · cases htask'
      rw [cachedIds, hcache]
      exact KeepsRecent.nil _
    · cases htask'
      rw [hcache] at hentry
      exact absurd hentry not_mem_nil
  · exact h

theorem Inv.step (h : s.Inv) {label : NodeLifeStep} (hok : s.StepOk label) :
    (s.step S codec qid label).Inv := by
  cases label with
  | mutate request logged => exact h.mutate hok
  | command operation logged =>
    refine h.of_cache rfl rfl fun task' htask' => ?_
    obtain ⟨task, htask, rfl⟩ := Option.map_eq_some_iff.mp htask'
    refine ⟨task, htask, ?_⟩
    cases logged <;> rfl
  | drainJournal =>
    refine h.of_cache rfl rfl fun task' htask' => ?_
    obtain ⟨task, htask, rfl⟩ := Option.map_eq_some_iff.mp htask'
    exact ⟨task, htask, rfl⟩
  | sleep now => exact h.sleep now
  | wake now => exact h.wake now

/-- **At most once.** In every life of a node in which applied requests are retried only while they
are among the most recent 5001 since the node was last woken, no request is applied twice, and every
retry returns the receipt of the application. -/
theorem atMostOnce_of_along (S : Serde) (codec : SnapshotCodec) (qid : NexoraId) (store : NodeStore)
    {steps : List NodeLifeStep} (h : Along (step S codec qid) StepOk (init store) steps) :
    AtMostOnce (run (step S codec qid) (init store) steps).answers := by
  have hstep : ∀ (s : NodeLife) (label : NodeLifeStep), s.Inv → s.StepOk label →
      (s.step S codec qid label).Inv :=
    fun s label hinv hok => hinv.step hok
  exact (run_invariant hstep (inv_init store) h).once

def addRequest (requestId : Nat) : MutationRequest :=
  ⟨requestId, [(.addLabel "A", none)], none, true⟩

def removeRequest (requestId : Nat) : MutationRequest :=
  ⟨requestId, [(.removeLabel "A", none)], none, true⟩

/-- A request that is retried after another one is answered with its receipt. -/
theorem atMostOnce_retried :
    let s := run (step flagLibraries labelCodec ⟨[1]⟩) (init (.inMemory ⟨[], []⟩))
      [.wake 10, .mutate (addRequest 1) true, .mutate (removeRequest 2) true,
        .mutate (addRequest 1) true]
    s.answers = [(1, .applied ⟨11, 1, 0⟩), (2, .applied ⟨12, 1, 0⟩), (1, .cached ⟨11, 1, 0⟩)] ∧
      AtMostOnce s.answers := by
  refine ⟨by decide, atMostOnce_of_along _ _ _ _ ⟨trivial, ?_, ?_, ?_, trivial⟩⟩
  · exact fun receipt hmem _ => absurd hmem not_mem_nil
  · intro receipt hmem _
    change (2, Answer.applied receipt) ∈ [(1, Answer.applied ⟨11, 1, 0⟩)] at hmem
    simp at hmem
  · exact fun receipt _ _ => by decide

/-- A node that has slept applies a request again: label `A`, which another request has removed
since, is back. -/
theorem applied_again_after_sleep :
    let s := run (step flagLibraries labelCodec ⟨[1]⟩) (init (.inMemory ⟨[], []⟩))
      [.wake 10, .mutate (addRequest 1) true, .mutate (removeRequest 2) true, .sleep 20, .wake 30,
        .mutate (addRequest 1) true]
    s.answers = [(1, .applied ⟨11, 1, 0⟩), (2, .applied ⟨12, 1, 0⟩), (1, .applied ⟨31, 1, 0⟩)] ∧
      ¬ AtMostOnce s.answers := by
  intro s
  have hanswers : s.answers =
      [(1, .applied ⟨11, 1, 0⟩), (2, .applied ⟨12, 1, 0⟩), (1, .applied ⟨31, 1, 0⟩)] := by decide
  refine ⟨hanswers, fun h => ?_⟩
  rw [hanswers] at h
  have hcached := (pairwise_cons.mp h).1 (1, .applied ⟨31, 1, 0⟩) (by simp) ⟨11, 1, 0⟩ rfl rfl
  cases hcached

end NodeLife
end Nexora
