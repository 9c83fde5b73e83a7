import Nexora.Cluster.ReplicaWriter

/-!
# Requests that are sent again

The writer keeps the results of requests for a time, and answers a request that it finds there as
committed (`nexora-zenoh/src/idempotency.rs`, `replica_writer.rs`). The results of failed requests
are kept in the same place, and are not told apart.
-/

namespace Nexora.Cluster
open Lib Option

/-! ### The tracker -/

inductive WriteResult where
  | committed (seq : Nat)
  | failed (error : String)
deriving DecidableEq

structure IdempotencyTracker where
  cache : Table String (WriteResult × Nat)
  ttl : Nat

namespace IdempotencyTracker

def new (ttl : Nat) : IdempotencyTracker := ⟨.empty, ttl⟩

def checkDuplicate (tracker : IdempotencyTracker) (requestId : String) : Option WriteResult :=
  (tracker.cache.find? requestId).map Prod.fst

def insert (tracker : IdempotencyTracker) (requestId : String) (result : WriteResult) (now : Nat) :
    IdempotencyTracker :=
  { tracker with cache := tracker.cache.put requestId (result, now) }

def recordSuccess (tracker : IdempotencyTracker) (requestId : String) (seq now : Nat) :
    IdempotencyTracker :=
  tracker.insert requestId (.committed seq) now

def recordFailure (tracker : IdempotencyTracker) (requestId error : String) (now : Nat) :
    IdempotencyTracker :=
  tracker.insert requestId (.failed error) now

def gc (tracker : IdempotencyTracker) (now : Nat) : IdempotencyTracker :=
  { tracker with cache := tracker.cache.filterMap fun entry => if now - entry.2 < tracker.ttl then some entry else none }

variable (tracker : IdempotencyTracker)

theorem checkDuplicate_insert (requestId : String) (result : WriteResult) (now : Nat)
    (other : String) :
    (tracker.insert requestId result now).checkDuplicate other =
      if other = requestId then some result else tracker.checkDuplicate other := by
  rw [checkDuplicate, insert, Table.find?_put]
  split <;> rfl

theorem checkDuplicate_of_gc {now : Nat} {requestId : String} {result : WriteResult}
    (h : (tracker.gc now).checkDuplicate requestId = some result) :
    tracker.checkDuplicate requestId = some result := by
  rw [checkDuplicate, gc, Table.find?_filterMap] at h
  rw [checkDuplicate]
  cases hfind : tracker.cache.find? requestId with
  | none =>
    rw [hfind] at h
    cases h
  | some entry =>
    rw [hfind, bind_some] at h
    split at h
    · exact h
    · cases h

theorem checkDuplicate_gc {now : Nat} {requestId : String}
    (h : ∀ entry ∈ tracker.cache.find? requestId, now - entry.2 < tracker.ttl) :
    (tracker.gc now).checkDuplicate requestId = tracker.checkDuplicate requestId := by
  rw [checkDuplicate, checkDuplicate, gc, Table.find?_filterMap]
  cases hfind : tracker.cache.find? requestId with
  | none => rfl
  | some entry => rw [bind_some, if_pos (h entry hfind)]

end IdempotencyTracker

/-! ### Quorum writes with a request identifier -/

structure IdempotentWriter where
  writer : ReplicaWriter
  idempotency : Option IdempotencyTracker

structure TokenWrite where
  requestId : Option String
  write : QuorumWrite
  now : Nat

namespace IdempotentWriter

def cached (s : IdempotentWriter) (requestId : Option String) : Option WriteResult :=
  s.idempotency.bind fun tracker => requestId.bind tracker.checkDuplicate

def recordResult (s : IdempotentWriter) (call : TokenWrite)
    (result : Except RouterError WriteStatus) :
    Option IdempotencyTracker :=
  match s.idempotency, call.requestId with
  | some tracker, some requestId =>
    match result with
    | .ok (.committedQuorum _ _) | .ok .committedLocal =>
      some (tracker.recordSuccess requestId (s.writer.nextSeq call.write.shard) call.now)
    | .error e => some (tracker.recordFailure requestId e.text call.now)
    | .ok _ => some tracker
  | tracker, _ => tracker

/-- A shard without followers is answered before anything is recorded. -/
def quorumWrite (s : IdempotentWriter) (call : TokenWrite) :
    IdempotentWriter × Except RouterError WriteStatus :=
  let result := s.writer.quorumWrite { call.write with duplicate := (s.cached call.requestId).isSome }
  if (s.cached call.requestId).isSome ∨ s.writer.followers call.write.shard = [] then
    ({ s with writer := result.1 }, result.2)
  else (⟨result.1, s.recordResult call result.2⟩, result.2)

end IdempotentWriter

def Committed (answer : Except RouterError WriteStatus) : Prop :=
  answer = .ok .committedLocal ∨ ∃ acked total, answer = .ok (.committedQuorum acked total)

theorem ReplicaWriter.quorumWrite_of_not_duplicate (w : ReplicaWriter) {call : QuorumWrite}
    (h : call.duplicate = false) :
    Committed (w.quorumWrite call).2 ∨ ∃ acked required,
      (w.quorumWrite call).2 = .error (.quorumFailed acked required) := by
  unfold quorumWrite
  rw [if_neg (by simp [h])]
  cases w.replicaSets call.shard with
  | none => exact .inl (.inl rfl)
  | some set =>
    dsimp only
    by_cases hempty : set.followers = []
    · rw [if_pos hempty]
      exact .inl (.inl rfl)
    · rw [if_neg hempty]
      generalize collectAcks _ _ _ _ _ = result
      by_cases hquorum : w.writeConcern.minAcks set.totalNodes ≤ result.1
      · exact .inl (.inr ⟨_, _, if_pos hquorum⟩)
      · exact .inr ⟨_, _, if_neg hquorum⟩

namespace IdempotentWriter
variable {s : IdempotentWriter} {call : TokenWrite}

theorem snd_quorumWrite (s : IdempotentWriter) (call : TokenWrite) : (s.quorumWrite call).2 =
      (s.writer.quorumWrite { call.write with duplicate := (s.cached call.requestId).isSome }).2 := by
  unfold quorumWrite
  split <;> rfl

theorem cached_of_alreadyCommitted (h : (s.quorumWrite call).2 = .ok .alreadyCommitted) :
    (s.cached call.requestId).isSome = true := by
  by_contra hnone
  have hfalse := Bool.eq_false_iff.mpr hnone
  rw [snd_quorumWrite] at h
  rcases @ReplicaWriter.quorumWrite_of_not_duplicate s.writer
      { call.write with duplicate := (s.cached call.requestId).isSome } hfalse with
    (hlocal | ⟨acked, total, hquorum⟩) | ⟨acked, required, hfailed⟩
  · rw [hlocal] at h
    cases h
  · rw [hquorum] at h
    cases h
  · rw [hfailed] at h
    cases h

theorem checkDuplicate_recordResult {answer : Except RouterError WriteStatus}
    {tracker : IdempotencyTracker} (htracker : s.recordResult call answer = some tracker)
    {requestId : String} {seq : Nat}
    (h : tracker.checkDuplicate requestId = some (.committed seq)) :
    s.cached (some requestId) = some (.committed seq) ∨ call.requestId = some requestId ∧ Committed answer := by
  unfold recordResult at htracker
  cases hold : s.idempotency with
  | none =>
    rw [hold] at htracker
    cases htracker
  | some old =>
    rw [hold] at htracker
    have hkeep : old.checkDuplicate requestId = some (.committed seq) →
        s.cached (some requestId) = some (.committed seq) := by
      intro hcached
      rw [cached, hold]
      exact hcached
    cases hid : call.requestId with
    | none =>
      rw [hid] at htracker
      cases htracker
      exact .inl (hkeep h)
    | some id =>
      rw [hid] at htracker
      have hinsert : ∀ result, tracker = old.insert id result call.now →
          requestId = id ∧ result = .committed seq ∨ s.cached (some requestId) = some (.committed seq) := by
        rintro result rfl
        rw [IdempotencyTracker.checkDuplicate_insert] at h
        split at h
        · next heq => exact .inl ⟨heq, some.inj h⟩
        · exact .inr (hkeep h)
      rcases answer with e | status
      · rcases hinsert _ (some.inj htracker).symm with ⟨-, hresult⟩ | hcached
        · cases hresult
        · exact .inl hcached
      · cases status with
        | committedLocal | committedQuorum =>
          rcases hinsert _ (some.inj htracker).symm with ⟨rfl, -⟩ | hcached
          · exact .inr ⟨rfl, by simp [Committed]⟩
          · exact .inl hcached
        | failed | alreadyCommitted =>
          cases htracker
          exact .inl (hkeep h)

theorem cached_quorumWrite {requestId : String} {seq : Nat}
    (h : (s.quorumWrite call).1.cached (some requestId) = some (.committed seq)) :
    s.cached (some requestId) = some (.committed seq) ∨
      call.requestId = some requestId ∧ Committed (s.quorumWrite call).2 := by
  unfold quorumWrite at h ⊢
  by_cases hearly : (s.cached call.requestId).isSome ∨ s.writer.followers call.write.shard = []
  · simp only [if_pos hearly] at h
    exact .inl h
  · simp only [if_neg hearly] at h ⊢
    obtain ⟨tracker, htracker, hcached⟩ := bind_eq_some_iff.mp h
    exact checkDuplicate_recordResult htracker hcached

end IdempotentWriter

/-! ### Sequences of calls -/

structure AnsweredWriter where
  writer : IdempotentWriter
  answers : List (Option String × Except RouterError WriteStatus)

inductive WriterStep where
  | write (call : TokenWrite)
  | gc (now : Nat)
  | registerReplicaSet (shard : Nat) (set : ReplicaSet)

namespace AnsweredWriter

def step (s : AnsweredWriter) : WriterStep → AnsweredWriter
  | .write call => ⟨(s.writer.quorumWrite call).1, s.answers ++ [(call.requestId, (s.writer.quorumWrite call).2)]⟩
  | .gc now => { s with writer := { s.writer with idempotency := s.writer.idempotency.map fun tracker => tracker.gc now } }
  | .registerReplicaSet shard set =>
    { s with
      writer :=
        { s.writer with
          writer := { s.writer.writer with replicaSets := Function.update s.writer.writer.replicaSets shard (some set) } } }

def start (writer : ReplicaWriter) (ttl : Option Nat) : AnsweredWriter :=
  ⟨⟨writer, ttl.map .new⟩, []⟩

def FindsNoFailure (s : AnsweredWriter) : WriterStep → Prop
  | .write call => ∀ error, s.writer.cached call.requestId ≠ some (.failed error)
  | _ => True

/-- A request that was answered as committed before had been answered as committed. -/
def Justified (answers : List (Option String × Except RouterError WriteStatus)) : Prop :=
  ∀ before answer after, answers = before ++ answer :: after → answer.2 = .ok .alreadyCommitted →
    ∃ earlier ∈ before, earlier.1 = answer.1 ∧ Committed earlier.2

structure Inv (s : AnsweredWriter) : Prop where
  justified : Justified s.answers
  cached : ∀ requestId seq, s.writer.cached (some requestId) = some (.committed seq) →
    ∃ earlier ∈ s.answers, earlier.1 = some requestId ∧ Committed earlier.2

theorem inv_start (writer : ReplicaWriter) (ttl : Option Nat) : Inv (start writer ttl) where
  justified before answer after heq := absurd heq.symm (List.append_ne_nil_of_right_ne_nil _ (List.cons_ne_nil _ _))
  cached requestId seq h := by
    cases ttl with
    | none | some => cases h

theorem Justified.append {answers : List (Option String × Except RouterError WriteStatus)}
    (h : Justified answers) {answer : Option String × Except RouterError WriteStatus}
    (hanswer : answer.2 = .ok .alreadyCommitted → ∃ earlier ∈ answers, earlier.1 = answer.1 ∧ Committed earlier.2) :
    Justified (answers ++ [answer]) := by
  intro before answer' after heq halready
  rcases List.eq_nil_or_concat after with rfl | ⟨after', last, rfl⟩
  · obtain ⟨rfl, hlast⟩ := List.append_inj' heq rfl
    cases hlast
    exact hanswer halready
  · rw [List.concat_eq_append, ← List.cons_append, ← List.append_assoc] at heq
    obtain ⟨hbefore, -⟩ := List.append_inj' heq rfl
    exact h before answer' after' hbefore halready

theorem Inv.step {s : AnsweredWriter} (h : Inv s) {label : WriterStep}
    (hlabel : s.FindsNoFailure label) :
    Inv (s.step label) := by
  cases label with
  | write call =>
    refine ⟨h.justified.append fun halready => ?_, fun requestId seq hcached => ?_⟩
    · -- What was found is not a failure, so that an earlier call committed.
      obtain ⟨result, hresult⟩ := isSome_iff_exists.mp (IdempotentWriter.cached_of_alreadyCommitted halready)
      cases result with
      | failed error => exact absurd hresult (hlabel error)
      | committed seq =>
        cases hid : call.requestId with
        | none =>
          rw [hid, IdempotentWriter.cached] at hresult
          cases htracker : s.writer.idempotency <;> rw [htracker] at hresult <;> cases hresult
        | some requestId => exact h.cached requestId seq (hid ▸ hresult)
    · rcases IdempotentWriter.cached_quorumWrite hcached with hold | ⟨hid, hcommitted⟩
      · obtain ⟨earlier, hmem, hearlier⟩ := h.cached requestId seq hold
        exact ⟨earlier, List.mem_append_left _ hmem, hearlier⟩
      · exact ⟨_, List.mem_append_right _ (List.mem_singleton_self _), hid, hcommitted⟩
  | gc now =>
    refine ⟨h.justified, fun requestId seq hcached => h.cached requestId seq ?_⟩
    obtain ⟨tracker, htracker, hfound⟩ := bind_eq_some_iff.mp hcached
    obtain ⟨old, hold, rfl⟩ := map_eq_some_iff.mp htracker
    rw [IdempotentWriter.cached, hold]
    exact old.checkDuplicate_of_gc hfound
  | registerReplicaSet shard set => exact ⟨h.justified, h.cached⟩

/-- **Answers to repeated requests.** In every sequence of calls none of which finds a failure kept
for its request, whatever happens to the followers, a request is answered as committed before only
if an earlier call for it was answered as committed. -/
theorem justified_of_along (writer : ReplicaWriter) (ttl : Option Nat) {labels : List WriterStep}
    (h : Along step FindsNoFailure (start writer ttl) labels) :
    Justified (run step (start writer ttl) labels).answers :=
  (@run_invariant _ _ step FindsNoFailure Inv (fun _ _ hs hlabel => Inv.step hs hlabel) _ (inv_start writer ttl) labels
    h).justified

def twoFollowers : ReplicaWriter where
  replicaSets := fun _ => some ⟨"a", ["b", "c"], by decide, by decide⟩
  writeConcern := .majority
  replicationLog := none
  progress := none
  taken := ∅

def request (outcome : FollowerOutcome) (now : Nat) : WriterStep :=
  .write ⟨some "r", ⟨0, false, fun _ => outcome, 2⟩, now⟩

theorem justified_after_success :
    (run step (start twoFollowers (some 300)) [request .succeeded 0, request .succeeded 1]).answers =
        [(some "r", .ok (.committedQuorum 2 3)), (some "r", .ok .alreadyCommitted)] ∧
      Justified (run step (start twoFollowers (some 300)) [request .succeeded 0, request .succeeded 1]).answers := by
  refine ⟨rfl, justified_of_along twoFollowers (some 300) ⟨?_, ?_, trivial⟩⟩
  · intro error h
    cases h
  · intro error h
    cases h

/-- **A failure is answered as a success.** No follower takes the write, and the request fails; when
it is sent again it is answered as committed before. -/
theorem alreadyCommitted_after_failure :
    (run step (start twoFollowers (some 300)) [request .failed 0, request .failed 1]).answers =
      [(some "r", .error (.quorumFailed 1 2)), (some "r", .ok .alreadyCommitted)] := rfl

end AnsweredWriter
end Nexora.Cluster
