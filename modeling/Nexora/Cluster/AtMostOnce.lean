import Nexora.Cluster.Idempotency
import Mathlib.Data.List.Count

/-!
# Requests that overlap

`idempotent_write` and `quorum_write` look a request up, do the write and record its result, with
the tracker unlocked in between (`nexora-zenoh/src/exactly_once.rs`, `replica_writer.rs`). Two calls
for one request that both look before either records both do the write.
-/

namespace Nexora.Cluster
open Lib Function

inductive CallKind where
  | idempotentWrite
  | quorumWrite
deriving DecidableEq

structure WriteCall where
  kind : CallKind
  requestId : String

/-- How the write ends. For a shard without followers there is nothing to replicate. -/
inductive WriteOutcome where
  | succeeded (seq : Nat)
  | failed (error : String)
  | withoutFollowers

inductive Phase where
  | waiting
  | running
  | finished (result : WriteResult)
  | returned

def Phase.InFlight : Phase → Prop
  | .running => True
  | .finished _ => True
  | _ => False

inductive TaskStep where
  | check (task : Nat)
  | finish (task : Nat) (outcome : WriteOutcome)
  | record (task : Nat) (now : Nat)
  | gc (now : Nat)

def WriteCall.after (call : WriteCall) : WriteOutcome → Phase
  | .succeeded seq => .finished (.committed (if call.kind = .idempotentWrite then 0 else seq))
  | .failed error => if call.kind = .idempotentWrite then .returned else .finished (.failed error)
  | .withoutFollowers => .returned

structure WriteTasks where
  tracker : IdempotencyTracker
  phase : Nat → Phase
  succeeded : List String

namespace WriteTasks
variable (calls : Nat → WriteCall)

def start (ttl : Nat) : WriteTasks := ⟨.new ttl, fun _ => .waiting, []⟩

def step (s : WriteTasks) : TaskStep → WriteTasks
  | .check task =>
    match s.phase task with
    | .waiting =>
      let found := (s.tracker.checkDuplicate (calls task).requestId).isSome
      { s with phase := update s.phase task (if found then .returned else .running) }
    | _ => s
  | .finish task outcome =>
    match s.phase task with
    | .running =>
      { s with
        phase := update s.phase task ((calls task).after outcome)
        succeeded :=
          match outcome with
          | .succeeded _ => (calls task).requestId :: s.succeeded
          | _ => s.succeeded }
    | _ => s
  | .record task now =>
    match s.phase task with
    | .finished result =>
      { s with
        tracker := s.tracker.insert (calls task).requestId result now
        phase := update s.phase task .returned }
    | _ => s
  | .gc now => { s with tracker := s.tracker.gc now }

/-- A call looks its request up only while no other call for it is under way. -/
def ChecksAlone (s : WriteTasks) : TaskStep → Prop
  | .check task => ∀ other ≠ task, (calls other).requestId = (calls task).requestId → ¬ (s.phase other).InFlight
  | _ => True

def Unexpired (requestId : String) (s : WriteTasks) : TaskStep → Prop
  | .gc now => ∀ entry ∈ s.tracker.cache.find? requestId, now - entry.2 < s.tracker.ttl
  | _ => True

/-- At most one call for the request is under way, and none once a result is kept; a write that was
done has its result kept, or about to be recorded. -/
structure Inv (requestId : String) (s : WriteTasks) : Prop where
  alone : ∀ task other, (calls task).requestId = requestId → (calls other).requestId = requestId →
    (s.phase task).InFlight → (s.phase other).InFlight → task = other
  settled : (s.tracker.checkDuplicate requestId).isSome → ∀ task, (calls task).requestId = requestId →
    ¬ (s.phase task).InFlight
  done : 0 < s.succeeded.count requestId → (s.tracker.checkDuplicate requestId).isSome ∨
    ∃ task result, (calls task).requestId = requestId ∧ s.phase task = .finished result
  count_le : s.succeeded.count requestId ≤ 1

variable {calls} {requestId : String} {s : WriteTasks} {task : Nat}

theorem inv_start (ttl : Nat) : Inv calls requestId (start ttl) :=
  ⟨fun _ _ _ _ h => absurd h id, fun h => absurd h Bool.false_ne_true, fun h => absurd h (lt_irrefl 0), Nat.zero_le 1⟩

theorem Inv.count_eq_zero (h : Inv calls requestId s) (hid : (calls task).requestId = requestId)
    (hphase : s.phase task = .running) : s.succeeded.count requestId = 0 := by
  have hflight : (s.phase task).InFlight := by rw [hphase]; trivial
  by_contra hne
  rcases h.done (Nat.pos_of_ne_zero hne) with hkept | ⟨other, result, hother, hfinished⟩
  · exact h.settled hkept task hid hflight
  · have heq := h.alone task other hid hother hflight (by rw [hfinished]; trivial)
    rw [heq, hfinished] at hphase
    cases hphase

theorem update_of_finished (hphase : ∀ result, s.phase task ≠ .finished result) {other : Nat}
    {result : WriteResult} (h : s.phase other = .finished result) (next : Phase) :
    update s.phase task next other = .finished result := by
  have hne : other ≠ task := by
    rintro rfl
    exact hphase result h
  exact (update_of_ne hne _ _).trans h

section
variable (h : Inv calls requestId s)
include h

theorem Inv.update {next : Phase} (hnext : next.InFlight → (s.phase task).InFlight)
    (hphase : ∀ result, s.phase task ≠ .finished result) :
    Inv calls requestId { s with phase := update s.phase task next } := by
  have hflight : ∀ other, ((Function.update s.phase task next) other).InFlight →
      (s.phase other).InFlight := by
    intro other hother
    by_cases heq : other = task
    · subst heq
      rw [update_self] at hother
      exact hnext hother
    · rwa [update_of_ne heq] at hother
  refine ⟨fun a b ha hb hfa hfb => h.alone a b ha hb (hflight a hfa) (hflight b hfb), fun hkept a ha hfa =>
    h.settled hkept a ha (hflight a hfa), fun hpos => ?_, h.count_le⟩
  exact (h.done hpos).imp_right fun ⟨other, result, hother, hfinished⟩ =>
    ⟨other, result, hother, update_of_finished hphase hfinished next⟩

theorem Inv.check (halone : ChecksAlone calls s (.check task)) :
    Inv calls requestId (s.step calls (.check task)) := by
  cases hphase : s.phase task with
  | running | finished result | returned =>
    simp only [step, hphase]
    exact h
  | waiting =>
    simp only [step, hphase]
    have hnot : ∀ result, s.phase task ≠ .finished result := fun result hresult => by rw [hphase] at hresult; cases hresult
    by_cases hfound : (s.tracker.checkDuplicate (calls task).requestId).isSome
    · rw [if_pos hfound]
      exact h.update (fun hflight => absurd hflight id) hnot
    · rw [if_neg hfound]
      -- The call goes on: it is alone, and nothing is kept for its request.
      have hself : ∀ other, (calls other).requestId = requestId → (calls task).requestId = requestId →
          ((Function.update s.phase task .running) other).InFlight → other = task := by
        intro other hother htask hflight
        by_contra hne
        rw [update_of_ne hne] at hflight
        exact halone other hne (hother.trans htask.symm) hflight
      refine ⟨fun a b ha hb hfa hfb => ?_, fun hkept a ha hfa => ?_, fun hpos => ?_, h.count_le⟩
      · by_cases htask : (calls task).requestId = requestId
        · rw [hself a ha htask hfa, hself b hb htask hfb]
        · have hne : ∀ other, (calls other).requestId = requestId → other ≠ task := by
            rintro other hother rfl
            exact htask hother
          dsimp only at hfa hfb
          rw [update_of_ne (hne a ha)] at hfa
          rw [update_of_ne (hne b hb)] at hfb
          exact h.alone a b ha hb hfa hfb
      · by_cases heq : a = task
        · subst heq
          exact hfound (ha ▸ hkept)
        · dsimp only at hfa
          rw [update_of_ne heq] at hfa
          exact h.settled hkept a ha hfa
      · exact (h.done hpos).imp_right fun ⟨other, result, hother, hfinished⟩ =>
          ⟨other, result, hother, update_of_finished hnot hfinished .running⟩

theorem Inv.finish (outcome : WriteOutcome) :
    Inv calls requestId (s.step calls (.finish task outcome)) := by
  cases hphase : s.phase task with
  | waiting | finished result | returned =>
    simp only [step, hphase]
    exact h
  | running =>
    simp only [step, hphase]
    have hrunning : (s.phase task).InFlight := by rw [hphase]; trivial
    have hnot : ∀ result, s.phase task ≠ .finished result := fun result hresult => by rw [hphase] at hresult; cases hresult
    have hmove : ∀ result, Inv calls requestId { s with phase := Function.update s.phase task (.finished result) } :=
      fun result => h.update (fun _ => hrunning) hnot
    cases outcome with
    | succeeded seq =>
      have hnew := hmove (.committed (if (calls task).kind = .idempotentWrite then 0 else seq))
      by_cases hid : (calls task).requestId = requestId
      · refine ⟨hnew.alone, hnew.settled, fun _ => .inr ⟨task, _, hid, update_self _ _ _⟩, ?_⟩
        show ((calls task).requestId :: s.succeeded).count requestId ≤ 1
        rw [hid, List.count_cons_self, h.count_eq_zero hid hphase]
      · have hcount : ((calls task).requestId :: s.succeeded).count requestId = s.succeeded.count requestId :=
          List.count_cons_of_ne hid
        refine ⟨hnew.alone, hnew.settled, fun hpos => hnew.done ?_, ?_⟩
        · exact hcount ▸ hpos
        · exact hcount.le.trans h.count_le
    | failed error =>
      dsimp only [WriteCall.after]
      split
      · exact h.update (fun hflight => absurd hflight id) hnot
      · exact hmove _
    | withoutFollowers => exact h.update (fun hflight => absurd hflight id) hnot

theorem Inv.record (now : Nat) : Inv calls requestId (s.step calls (.record task now)) := by
  cases hphase : s.phase task with
  | waiting | running | returned =>
    simp only [step, hphase]
    exact h
  | finished result =>
    simp only [step, hphase]
    have hfinished : (s.phase task).InFlight := by rw [hphase]; trivial
    have hflight : ∀ other, ((Function.update s.phase task .returned) other).InFlight →
        other ≠ task ∧ (s.phase other).InFlight := by
      intro other hother
      by_cases heq : other = task
      · subst heq
        rw [update_self] at hother
        exact absurd hother id
      · exact ⟨heq, by rwa [update_of_ne heq] at hother⟩
    have hchecked : ∀ other, (s.tracker.insert (calls task).requestId result now).checkDuplicate other =
        if other = (calls task).requestId then some result else s.tracker.checkDuplicate other := fun other =>
      s.tracker.checkDuplicate_insert _ _ _ _
    refine ⟨fun a b ha hb hfa hfb => h.alone a b ha hb (hflight a hfa).2 (hflight b hfb).2, fun hkept a ha hfa => ?_,
      fun hpos => ?_, h.count_le⟩
    · obtain ⟨hne, hfa⟩ := hflight a hfa
      by_cases hid : (calls task).requestId = requestId
      · exact hne (h.alone a task ha hid hfa hfinished)
      · dsimp only at hkept
        rw [hchecked, if_neg (Ne.symm hid)] at hkept
        exact h.settled hkept a ha hfa
    · by_cases hid : (calls task).requestId = requestId
      · refine .inl ?_
        dsimp only
        rw [hchecked, if_pos hid.symm]
        rfl
      · rcases h.done hpos with hkept | ⟨other, result', hother, hresult'⟩
        · refine .inl ?_
          dsimp only
          rwa [hchecked, if_neg (Ne.symm hid)]
        · refine .inr ⟨other, result', hother, ?_⟩
          have hne : other ≠ task := by
            rintro rfl
            exact hid hother
          exact (update_of_ne hne _ _).trans hresult'

theorem Inv.step {label : TaskStep} (halone : ChecksAlone calls s label)
    (hkept : Unexpired requestId s label) : Inv calls requestId (s.step calls label) := by
  cases label with
  | check task => exact h.check halone
  | finish task outcome => exact h.finish outcome
  | record task now => exact h.record now
  | gc now =>
    have hsame := s.tracker.checkDuplicate_gc hkept
    refine ⟨h.alone, fun hsome => h.settled (hsame ▸ hsome), fun hpos => ?_, h.count_le⟩
    exact (h.done hpos).imp_left fun hsome => by
      show ((s.tracker.gc now).checkDuplicate requestId).isSome
      rwa [hsame]

end

/-- **A write is done at most once.** In every interleaving of calls in which a call looks its
request up only while no other call for that request is under way, and the result of a request is
not dropped, the write of the request is done with success at most once. -/
theorem count_succeeded_of_along (calls : Nat → WriteCall) (requestId : String) (ttl : Nat)
    {labels : List TaskStep}
    (h : Along (step calls) (fun s label => ChecksAlone calls s label ∧ Unexpired requestId s label)
      (start ttl) labels) :
    (run (step calls) (start ttl) labels).succeeded.count requestId ≤ 1 :=
  (@run_invariant _ _ (step calls) _ (Inv calls requestId) (fun _ _ hs hlabel => hs.step hlabel.1 hlabel.2) _
    (inv_start ttl) labels h).count_le

def oneRequest (kind : CallKind) (_ : Nat) : WriteCall := ⟨kind, "r"⟩

/-- A call that is sent again when it has returned. -/
theorem count_succeeded_in_turn : (run (step (oneRequest .quorumWrite)) (start 300)
      [.check 0, .finish 0 (.succeeded 1), .record 0 5, .gc 6, .check 1, .finish 1 (.succeeded 2)]).succeeded.count "r" ≤ 1 := by
  apply count_succeeded_of_along
  refine ⟨⟨fun _ _ _ => id, trivial⟩, ⟨trivial, trivial⟩, ⟨trivial, trivial⟩, ⟨trivial, ?_⟩,
    ⟨fun other hne _ => ?_, trivial⟩,
    ⟨trivial, trivial⟩, trivial⟩
  · intro entry hentry
    cases hentry
    decide
  · rcases other with _ | other
    · exact id
    · exact id

/-- **Two calls do the write.** Both look the request up before either has recorded its result. -/
theorem both_succeed : (run (step (oneRequest .idempotentWrite)) (start 300)
        [.check 0, .check 1, .finish 0 (.succeeded 1), .finish 1 (.succeeded 2)]).succeeded.count "r" = 2 ∧
      (run (step (oneRequest .quorumWrite)) (start 300)
        [.check 0, .check 1, .finish 0 (.succeeded 1), .finish 1 (.succeeded 2)]).succeeded.count "r" = 2 := ⟨rfl, rfl⟩

end WriteTasks
end Nexora.Cluster
