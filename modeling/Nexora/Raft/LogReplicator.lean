import Nexora.Cluster.ReplicationProgress
import Nexora.Lib.Bytes

/-!
# The log replicator

The leader of a shard sends the numbers of its entries to the followers and counts who has them
(`nexora-raft/src/lib.rs`). A `replicate_to` that is answered with success has the lock of the
followers and waits for it a second time, in `try_advance_commit`: it never returns. So the index
is raised only by a leader that is a quorum by itself.
-/

namespace Nexora.Raft
open Lib Nexora.Cluster List

abbrev SeqNo := Fin (2 ^ 64)

structure FollowerProgress where
  nextSeq : SeqNo
  matchSeq : SeqNo

structure RaftLogReplicator where
  quorumSize : Nat
  maxBatchSize : Nat
  nodeId : NodeName
  commitIndex : SeqNo
  lastApplied : SeqNo
  followers : Table NodeName FollowerProgress

namespace RaftLogReplicator

def new (quorumSize maxBatchSize : Nat) (nodeId : NodeName) : RaftLogReplicator :=
  ⟨quorumSize, maxBatchSize, nodeId, 0, 0, .empty⟩

variable (r : RaftLogReplicator)

def setFollower (node : NodeName) (lastSeq : SeqNo) : RaftLogReplicator :=
  { r with followers := r.followers.put node ⟨lastSeq + 1, lastSeq⟩ }

def removeFollower (node : NodeName) : RaftLogReplicator :=
  { r with followers := r.followers.erase node }

def advanceCommitIndex (newCommit : SeqNo) : RaftLogReplicator :=
  if newCommit ≤ r.commitIndex then r else { r with commitIndex := newCommit }

def noteApplied (seq : SeqNo) : RaftLogReplicator :=
  { r with lastApplied := max r.lastApplied seq }

/-- The numbers of the entries of one batch. -/
def sent (lastApplied : SeqNo) : Nat → SeqNo → List SeqNo
  | 0, _ => []
  | room + 1, seq => if seq ≤ lastApplied then seq :: sent lastApplied room (seq + 1) else []

def reached : List (NodeName × SeqNo) :=
  r.followers.rows.map (fun row => (row.1, row.2.matchSeq)) ++ [(r.nodeId, r.lastApplied)]

/-- What `try_advance_commit` would commit. Without a place of the quorum, which there is unless the
quorum is empty, it ends with a panic. -/
def quorumSeq : Option SeqNo :=
  let matched := (r.reached.map Prod.snd).insertionSort (· ≤ ·)
  matched[matched.length - r.quorumSize]?

theorem commitIndex_advanceCommitIndex (newCommit : SeqNo) :
    (r.advanceCommitIndex newCommit).commitIndex = max r.commitIndex newCommit := by
  unfold advanceCommitIndex
  split
  · next hle => exact (max_eq_left hle).symm
  · next hlt => exact (max_eq_right (not_le.mp hlt).le).symm

private theorem lastApplied_advanceCommitIndex (newCommit : SeqNo) :
    (r.advanceCommitIndex newCommit).lastApplied = r.lastApplied := by
  unfold advanceCommitIndex
  split <;> rfl

end RaftLogReplicator

/-- What stands elsewhere in a list stays when a place is removed or changed. -/
private theorem mem_of_ne {α : Type} {tasks : List α} {i : Nat} {task other : α}
    (htask : tasks[i]? = some task) (hne : other ≠ task) (hmem : other ∈ tasks) (new : α) :
    other ∈ tasks.eraseIdx i ∧ other ∈ tasks.set i new := by
  obtain ⟨j, hj⟩ := mem_iff_getElem?.mp hmem
  have hij : i ≠ j := by
    rintro rfl
    exact hne (Option.some.inj (hj.symm.trans htask))
  exact ⟨mem_eraseIdx_iff_getElem?.mpr ⟨j, hij.symm, hj⟩,
    mem_of_getElem? (by rw [getElem?_set_ne hij, hj])⟩

/-! ### Calls and the lock of the followers -/

/-- Where a call is. One that is `stuck` has the lock of the followers and waits for it. -/
inductive ReplicatorCall
  | committing (seq : SeqNo)
  | collecting (node : NodeName) (lastApplied : SeqNo)
  | sending (node : NodeName) (lastSeq : SeqNo)
  | answered (node : NodeName) (lastSeq : SeqNo)
  | stuck
  deriving DecidableEq

/-- The replicator with the calls under way and what the followers have acknowledged: with their
registration, or with an answer. -/
structure LockedReplicator where
  r : RaftLogReplicator
  calls : List ReplicatorCall
  acks : List (NodeName × SeqNo)

/-- A call begins, goes on behind its next lock or answer, or is given up by its caller, which
releases the lock that it has. -/
inductive CallEvent
  | registerFollower (node : NodeName) (lastSeq : SeqNo)
  | removeFollower (node : NodeName)
  | appendLocal (seq : SeqNo)
  | replicateTo (node : NodeName)
  | resume (call : Nat) (success : Bool)
  | giveUp (call : Nat)

namespace LockedReplicator

def start (quorumSize maxBatchSize : Nat) (nodeId : NodeName) : LockedReplicator :=
  ⟨.new quorumSize maxBatchSize nodeId, [], []⟩

variable (s : LockedReplicator)

/-- What is done under the lock of the followers waits while a call has it. -/
def whenFree (s' : LockedReplicator) : LockedReplicator := if .stuck ∈ s.calls then s else s'

def goOn (i : Nat) (success : Bool) : ReplicatorCall → LockedReplicator
  | .committing seq => { s with r := s.r.advanceCommitIndex seq, calls := s.calls.eraseIdx i }
  | .collecting node lastApplied => s.whenFree <|
    match s.r.followers.find? node with
    | none => { s with calls := s.calls.eraseIdx i }
    | some progress =>
      match (RaftLogReplicator.sent lastApplied s.r.maxBatchSize progress.nextSeq).getLast? with
      | none => { s with calls := s.calls.eraseIdx i }
      | some lastSeq => { s with calls := s.calls.set i (.sending node lastSeq) }
  | .sending node lastSeq =>
    -- Whatever else the answer says, one with success is counted.
    if success then
      { s with calls := s.calls.set i (.answered node lastSeq), acks := (node, lastSeq) :: s.acks }
    else { s with calls := s.calls.eraseIdx i }
  | .answered node lastSeq => s.whenFree
    { s with
      r := if (s.r.followers.find? node).isSome then s.r.setFollower node lastSeq else s.r
      calls := s.calls.set i .stuck }
  | .stuck => s

def step (s : LockedReplicator) : CallEvent → LockedReplicator
  | .registerFollower node lastSeq =>
    s.whenFree { s with r := s.r.setFollower node lastSeq, acks := (node, lastSeq) :: s.acks }
  | .removeFollower node => s.whenFree { s with r := s.r.removeFollower node }
  | .appendLocal seq =>
    -- Only a leader that is a quorum by itself commits.
    { s with
      r := s.r.noteApplied seq
      calls := if s.r.quorumSize ≤ 1 then .committing seq :: s.calls else s.calls }
  | .replicateTo node => { s with calls := .collecting node s.r.lastApplied :: s.calls }
  | .resume i success => s.calls[i]?.elim s (s.goOn i success)
  | .giveUp i => { s with calls := s.calls.eraseIdx i }

def Acknowledged (node : NodeName) (seq : SeqNo) : Prop :=
  node = s.r.nodeId ∧ seq ≤ s.r.lastApplied ∨ ∃ ack ∈ s.acks, ack.1 = node ∧ seq ≤ ack.2

def ByQuorum (seq : SeqNo) : Prop :=
  ∃ nodes : Finset NodeName, s.r.quorumSize ≤ nodes.card ∧ ∀ node ∈ nodes, s.Acknowledged node seq

/-- What is or will be committed is applied, and nothing is if the leader needs others. -/
structure Sound : Prop where
  alone : ∀ seq, .committing seq ∈ s.calls → s.r.quorumSize ≤ 1 ∧ seq ≤ s.r.lastApplied
  applied : s.r.commitIndex ≤ s.r.lastApplied
  nothing : 1 < s.r.quorumSize → s.r.commitIndex = 0

variable {s}

/-- A step that leaves the index alone, and brings no call that will raise it without the leader
being a quorum by itself. -/
structure Quiet (s s' : LockedReplicator) : Prop where
  quorumSize : s'.r.quorumSize = s.r.quorumSize
  commitIndex : s'.r.commitIndex = s.r.commitIndex
  lastApplied : s.r.lastApplied ≤ s'.r.lastApplied
  calls : ∀ seq, .committing seq ∈ s'.calls →
    .committing seq ∈ s.calls ∨ s.r.quorumSize ≤ 1 ∧ seq ≤ s'.r.lastApplied

private theorem Quiet.refl : Quiet s s := ⟨rfl, rfl, le_rfl, fun _ h => .inl h⟩

private theorem Quiet.erase (i : Nat) : Quiet s { s with calls := s.calls.eraseIdx i } :=
  ⟨rfl, rfl, le_rfl, fun _ h => .inl (mem_of_mem_eraseIdx h)⟩

private theorem Quiet.set {s' : LockedReplicator} {i : Nat} {call : ReplicatorCall}
    (hr : s'.r = s.r ∨ ∃ node lastSeq, s'.r = s.r.setFollower node lastSeq)
    (hcalls : s'.calls = s.calls.set i call) (hcall : ∀ seq, call ≠ .committing seq) :
    Quiet s s' := by
  have hsame : s'.r.quorumSize = s.r.quorumSize ∧ s'.r.commitIndex = s.r.commitIndex ∧
      s.r.lastApplied ≤ s'.r.lastApplied := by
    obtain hr | ⟨node, lastSeq, hr⟩ := hr <;> rw [hr] <;> exact ⟨rfl, rfl, le_rfl⟩
  refine ⟨hsame.1, hsame.2.1, hsame.2.2, fun seq hseq => ?_⟩
  rw [hcalls] at hseq
  rcases mem_or_eq_of_mem_set hseq with hseq | heq
  · exact .inl hseq
  · exact absurd heq.symm (hcall seq)

private theorem Quiet.whenFree {s' : LockedReplicator} (h : Quiet s s') :
    Quiet s (s.whenFree s') := by
  unfold LockedReplicator.whenFree
  split
  · exact .refl
  · exact h

private theorem quiet_goOn (i : Nat) (success : Bool) {call : ReplicatorCall}
    (hcall : ∀ seq, call ≠ .committing seq) : Quiet s (s.goOn i success call) := by
  cases call with
  | committing seq => exact absurd rfl (hcall seq)
  | collecting node lastApplied =>
    refine Quiet.whenFree ?_
    split
    · exact .erase i
    · split
      · exact .erase i
      · exact .set (.inl rfl) rfl (by rintro seq ⟨⟩)
  | sending node lastSeq =>
    cases success with
    | true => exact .set (.inl rfl) rfl (by rintro seq ⟨⟩)
    | false => exact .erase i
  | answered node lastSeq =>
    refine Quiet.whenFree (.set ?_ rfl (by rintro seq ⟨⟩))
    dsimp only
    split
    · exact .inr ⟨node, lastSeq, rfl⟩
    · exact .inl rfl
  | stuck => exact .refl

/-- A step leaves the index alone, or is the leader's own commit. -/
theorem step_cases (s : LockedReplicator) (event : CallEvent) : Quiet s (s.step event) ∨
    ∃ i seq, s.calls[i]? = some (.committing seq) ∧ s.step event =
      { s with r := s.r.advanceCommitIndex seq, calls := s.calls.eraseIdx i } := by
  cases event with
  | registerFollower | removeFollower =>
    exact .inl (Quiet.whenFree ⟨rfl, rfl, le_rfl, fun _ h => .inl h⟩)
  | appendLocal seq =>
    refine .inl ⟨rfl, rfl, le_max_left _ _, fun seq' hseq' => ?_⟩
    simp only [step] at hseq'
    split at hseq'
    · next hsize =>
      rcases mem_cons.mp hseq' with heq | hseq'
      · cases heq
        exact .inr ⟨hsize, le_max_right _ _⟩
      · exact .inl hseq'
    · exact .inl hseq'
  | replicateTo node =>
    refine .inl ⟨rfl, rfl, le_rfl, fun seq hseq => .inl ?_⟩
    simpa [step] using hseq
  | giveUp i => exact .inl (.erase i)
  | resume i success =>
    cases hcall : s.calls[i]? with
    | none => exact .inl (by simpa [step, hcall] using Quiet.refl)
    | some call =>
      have hstep : s.step (.resume i success) = s.goOn i success call := by simp [step, hcall]
      rw [hstep]
      by_cases hcommit : ∃ seq, call = .committing seq
      · obtain ⟨seq, rfl⟩ := hcommit
        exact .inr ⟨i, seq, hcall, rfl⟩
      · exact .inl (quiet_goOn i success fun seq h => hcommit ⟨seq, h⟩)

theorem commitIndex_le_step (s : LockedReplicator) (event : CallEvent) :
    s.r.commitIndex ≤ (s.step event).r.commitIndex := by
  obtain hquiet | ⟨i, seq, -, hstep⟩ := s.step_cases event
  · exact hquiet.commitIndex.ge
  · rw [hstep, s.r.commitIndex_advanceCommitIndex]
    exact le_max_left _ _

theorem quorumSize_step (s : LockedReplicator) (event : CallEvent) :
    (s.step event).r.quorumSize = s.r.quorumSize := by
  obtain hquiet | ⟨i, seq, -, hstep⟩ := s.step_cases event
  · exact hquiet.quorumSize
  · rw [hstep]
    unfold RaftLogReplicator.advanceCommitIndex
    split <;> rfl

theorem Sound.step (h : s.Sound) (event : CallEvent) : (s.step event).Sound := by
  obtain hquiet | ⟨i, seq, hcall, hstep⟩ := s.step_cases event
  · refine ⟨fun seq hseq => ?_, ?_, ?_⟩
    · rw [hquiet.quorumSize]
      rcases hquiet.calls seq hseq with hold | hnew
      · exact ⟨(h.alone seq hold).1, (h.alone seq hold).2.trans hquiet.lastApplied⟩
      · exact hnew
    · rw [hquiet.commitIndex]
      exact h.applied.trans hquiet.lastApplied
    · rw [hquiet.quorumSize, hquiet.commitIndex]
      exact h.nothing
  · obtain ⟨hsize, hseq⟩ := h.alone seq (mem_of_getElem? hcall)
    have hsize' : (s.step event).r.quorumSize ≤ 1 := (s.quorumSize_step event).trans_le hsize
    have happlied : (s.step event).r.lastApplied = s.r.lastApplied := by
      rw [hstep]
      exact s.r.lastApplied_advanceCommitIndex seq
    refine ⟨fun seq' hseq' => ⟨hsize', ?_⟩, ?_, fun hlt => absurd hsize' (not_le.mpr hlt)⟩
    · rw [hstep] at hseq'
      rw [happlied]
      exact (h.alone seq' (mem_of_mem_eraseIdx hseq')).2
    · rw [happlied, hstep, s.r.commitIndex_advanceCommitIndex]
      exact max_le h.applied hseq

private theorem sound_start (quorumSize maxBatchSize : Nat) (nodeId : NodeName) :
    (start quorumSize maxBatchSize nodeId).Sound where
  alone _ h := absurd h not_mem_nil
  applied := le_rfl
  nothing _ := rfl

/-- **What a commit stands on.** In every interleaving of the calls, and whatever the followers
answer, the index never goes down, and all entries up to it have been acknowledged by a quorum. -/
theorem commit_by_quorum (quorumSize maxBatchSize : Nat) (nodeId : NodeName)
    (events : List CallEvent) :
    let s := start quorumSize maxBatchSize nodeId
    (∀ i j, i ≤ j →
      (run step s (events.take i)).r.commitIndex ≤ (run step s (events.take j)).r.commitIndex) ∧
    ∀ seq, 0 < seq → seq ≤ (run step s events).r.commitIndex → (run step s events).ByQuorum seq := by
  intro s
  have hsound : (run step s events).Sound :=
    run_preserves (fun _ event h => h.step event) (sound_start ..) events
  refine ⟨?_, fun seq hpos hle => ?_⟩
  · refine (@forall_take_le_iff_along _ _ step (fun _ _ => True) (fun _ => True)
      (fun a b => a.r.commitIndex ≤ b.r.commitIndex) (fun _ => le_rfl) (fun _ _ _ => le_trans)
      (fun _ _ _ => trivial) ?_ s trivial events).mpr (along_true s events)
    exact fun a event _ => iff_of_true (a.commitIndex_le_step event) trivial
  · have halone : (run step s events).r.quorumSize ≤ 1 := by
      by_contra hnot
      rw [hsound.nothing (not_le.mp hnot)] at hle
      exact absurd hpos (not_lt.mpr hle)
    refine ⟨{(run step s events).r.nodeId}, halone, fun node hnode => .inl ?_⟩
    exact ⟨Finset.mem_singleton.mp hnode, hle.trans hsound.applied⟩

/-- A leader that is a quorum by itself, with a follower whose answer has not come. -/
theorem commit_by_quorum_alone :
    let events := [.registerFollower "b" 0, .appendLocal 1, .replicateTo "b", .resume 1 true]
    (run step (start 1 10 "a") events).r.commitIndex = 1 ∧
      (run step (start 1 10 "a") events).ByQuorum 1 :=
  ⟨by decide +kernel, (commit_by_quorum 1 10 "a" _).2 1 (by decide) (by decide +kernel)⟩

/-- **A leader that needs others commits nothing**, in any run: whoever has an answer to count waits
for the lock that it has itself. -/
theorem commitIndex_run_eq_zero {quorumSize : Nat} (hsize : 1 < quorumSize) (maxBatchSize : Nat)
    (nodeId : NodeName) (events : List CallEvent) :
    (run step (start quorumSize maxBatchSize nodeId) events).r.commitIndex = 0 := by
  have hsound : (run step (start quorumSize maxBatchSize nodeId) events).Sound :=
    run_preserves (fun _ event h => h.step event) (sound_start ..) events
  refine hsound.nothing (hsize.trans_eq (Eq.symm ?_))
  exact @run_preserves _ _ step (fun s => s.r.quorumSize = quorumSize)
    (fun _ event h => (quorumSize_step _ event).trans h) _ rfl events

/-- The leader and one of two followers are a quorum. The follower has acknowledged the entry. -/
theorem commitIndex_run_eq_zero_two_followers :
    let s := run step (start 2 10 "a") [.registerFollower "b" 0, .registerFollower "c" 0,
      .appendLocal 1, .replicateTo "b", .resume 0 true, .resume 0 true, .resume 0 true]
    s.ByQuorum 1 ∧ .stuck ∈ s.calls ∧ s.r.commitIndex = 0 := by
  refine ⟨⟨{"a", "b"}, by decide +kernel, ?_⟩, by decide +kernel,
    commitIndex_run_eq_zero (by decide) 10 "a" _⟩
  intro node hnode
  obtain rfl | rfl : node = "a" ∨ node = "b" := by simpa using hnode
  · exact .inl ⟨by decide +kernel, by decide +kernel⟩
  · exact .inr ⟨("b", 1), by decide +kernel, rfl, le_rfl⟩

end LockedReplicator

/-! ### Receivers that wait for a commit

The index, the number of the last entry and the table of those who wait are behind locks of their own, so other tasks come in
between. -/

/-- Where a task is: about to enter a receiver, about to raise the index, or about to tell the
receivers of a raised one. -/
inductive ReplicatorTask
  | registering (seq : SeqNo)
  | committing (newCommit : SeqNo)
  | notifying (newCommit : SeqNo)
  deriving DecidableEq

structure WaitingReplicator where
  r : RaftLogReplicator
  waiters : List SeqNo
  tasks : List ReplicatorTask

inductive ReplicatorEvent
  | follower (node : NodeName) (lastSeq : SeqNo)
  | removeFollower (node : NodeName)
  | beginAppend (seq : SeqNo)
  | beginAdvance
  | resume (task : Nat)

namespace WaitingReplicator

def resume (s : WaitingReplicator) (i : Nat) : WaitingReplicator :=
  match s.tasks[i]? with
  | none => s
  | some (.registering seq) =>
    { s with
      waiters := seq :: s.waiters
      tasks := if s.r.quorumSize ≤ 1 then s.tasks.set i (.committing seq) else s.tasks.eraseIdx i }
  | some (.committing newCommit) =>
    if newCommit ≤ s.r.commitIndex then { s with tasks := s.tasks.eraseIdx i }
    else { s with r := { s.r with commitIndex := newCommit }, tasks := s.tasks.set i (.notifying newCommit) }
  | some (.notifying newCommit) => { s with waiters := s.waiters.filter (newCommit < ·), tasks := s.tasks.eraseIdx i }

def step (s : WaitingReplicator) : ReplicatorEvent → WaitingReplicator
  | .follower node lastSeq => { s with r := s.r.setFollower node lastSeq }
  | .removeFollower node => { s with r := s.r.removeFollower node }
  | .beginAppend seq => { s with r := s.r.noteApplied seq, tasks := .registering seq :: s.tasks }
  | .beginAdvance => { s with tasks := (s.r.quorumSeq.map ReplicatorTask.committing).toList ++ s.tasks }
  | .resume i => s.resume i

/-- The number is not committed yet, or a task is about to tell those who wait for it. -/
def Covers (s : WaitingReplicator) (seq : SeqNo) : Prop :=
  s.r.commitIndex < seq ∨ ∃ newCommit, seq ≤ newCommit ∧ .notifying newCommit ∈ s.tasks

/-- A receiver is entered before its number is committed, or before the others are told. -/
def InTime (s : WaitingReplicator) : ReplicatorEvent → Prop
  | .resume i => ∀ seq, s.tasks[i]? = some (.registering seq) → s.Covers seq
  | _ => True

variable {s : WaitingReplicator}

theorem Covers.of_tasks {s' : WaitingReplicator} {seq : SeqNo} (h : s.Covers seq)
    (hcommit : s'.r.commitIndex = s.r.commitIndex)
    (htasks : ∀ newCommit, seq ≤ newCommit → .notifying newCommit ∈ s.tasks → .notifying newCommit ∈ s'.tasks) :
    s'.Covers seq := by
  rcases h with h | ⟨newCommit, hle, hmem⟩
  · exact .inl (hcommit ▸ h)
  · exact .inr ⟨newCommit, hle, htasks newCommit hle hmem⟩

theorem covers_step (h : ∀ seq ∈ s.waiters, s.Covers seq) (event : ReplicatorEvent)
    (hevent : s.InTime event) :
    ∀ seq ∈ (s.step event).waiters, (s.step event).Covers seq := by
  cases event with
  | follower node lastSeq | removeFollower node => exact fun seq hseq => (h seq hseq).of_tasks rfl fun _ _ hmem => hmem
  | beginAppend seq' => exact fun seq hseq => (h seq hseq).of_tasks rfl fun _ _ hmem => mem_cons_of_mem _ hmem
  | beginAdvance => exact fun seq hseq => (h seq hseq).of_tasks rfl fun _ _ hmem => mem_append_right _ hmem
  | resume i =>
    simp only [step, resume]
    cases htask : s.tasks[i]? with
    | none => exact h
    | some task =>
      cases task with
      | registering seq' =>
        intro seq hseq
        have hcovers : s.Covers seq := by
          rcases mem_cons.mp hseq with rfl | hseq
          · exact hevent seq htask
          · exact h seq hseq
        refine hcovers.of_tasks rfl fun newCommit _ hmem => ?_
        have hother := mem_of_ne htask ReplicatorTask.noConfusion hmem (.committing seq')
        dsimp only
        split
        · exact hother.2
        · exact hother.1
      | committing newCommit =>
        dsimp only
        split
        · exact fun seq hseq => (h seq hseq).of_tasks rfl fun _ _ hmem =>
            (mem_of_ne htask ReplicatorTask.noConfusion hmem (.committing newCommit)).1
        · intro seq hseq
          rcases lt_or_ge newCommit seq with hlt | hle
          · exact .inl hlt
          · have hi : i < s.tasks.length := (List.getElem?_eq_some_iff.mp htask).1
            exact .inr ⟨newCommit, hle, mem_set hi _⟩
      | notifying newCommit =>
        intro seq hseq
        obtain ⟨hseq, hlt⟩ := mem_filter.mp hseq
        refine (h seq hseq).of_tasks rfl fun other hle hmem => (mem_of_ne htask ?_ hmem (.notifying newCommit)).1
        rintro heq
        cases heq
        exact absurd (of_decide_eq_true hlt) (not_lt.mpr hle)

/-- **No notification is lost**, if every receiver is entered in time: when no task is under way,
nobody waits for a number that is committed. -/
theorem lt_of_waiting (r : RaftLogReplicator) {events : List ReplicatorEvent}
    (h : Along step InTime ⟨r, [], []⟩ events) (hidle : (run step ⟨r, [], []⟩ events).tasks = []) :
    ∀ seq ∈ (run step ⟨r, [], []⟩ events).waiters, (run step ⟨r, [], []⟩ events).r.commitIndex < seq := by
  intro seq hseq
  have hcovers := @run_invariant _ _ step InTime (fun s => ∀ seq ∈ s.waiters, s.Covers seq)
    (fun s event hs hevent => covers_step hs event hevent) ⟨r, [], []⟩ (fun _ hnone => absurd hnone not_mem_nil) events h seq hseq
  rcases hcovers with hlt | ⟨newCommit, -, hmem⟩
  · exact hlt
  · rw [hidle] at hmem
    cases hmem

theorem lt_of_waiting_uncommitted :
    let s := run step ⟨.new 2 10 "a", [], []⟩ [.beginAppend 1, .resume 0]
    s.waiters = [1] ∧ ∀ seq ∈ s.waiters, s.r.commitIndex < seq := by
  have hintime : Along step InTime ⟨.new 2 10 "a", [], []⟩ [.beginAppend 1, .resume 0] := by
    refine ⟨trivial, fun seq hseq => ?_, trivial⟩
    cases hseq
    exact .inl (by decide)
  exact ⟨rfl, lt_of_waiting (.new 2 10 "a") hintime rfl⟩

/-- A leader that is a quorum by itself commits 5 before 3 is appended. -/
def outOfOrder : List ReplicatorEvent :=
  [.beginAppend 5, .resume 0, .resume 0, .resume 0, .beginAppend 3, .resume 0, .resume 0]

/-- Nothing is under way, and a receiver waits for a number that is committed. -/
theorem waiting_for_committed :
    let s := run step ⟨.new 1 10 "a", [], []⟩ outOfOrder
    s.tasks = [] ∧ 3 ∈ s.waiters ∧ s.r.commitIndex = 5 := by
  decide +kernel

end WaitingReplicator
end Nexora.Raft
