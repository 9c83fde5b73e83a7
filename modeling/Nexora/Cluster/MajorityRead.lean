import Nexora.Cluster.CommitIndex
import Nexora.Value

/-!
# Reads from a follower

A read goes to the owner first and then, if the read concern allows it, to the followers
(`nexora-zenoh/src/failover.rs`). For a majority read a follower has to have acknowledged the
session's last write and that of the commit index; the tracker knows only the highest number it has
acknowledged.
-/

namespace Nexora.Cluster
open Lib Option SessionReadTracker ReplicationProgress

inductive ReadConcern where
  | localRead
  | majority
  | linearizable
deriving DecidableEq

def ReadConcern.name : ReadConcern → String
  | .localRead => "Local"
  | .majority => "Majority"
  | .linearizable => "Linearizable"

structure ShardAssignment where
  owner : NodeName
  replicas : List NodeName

/-- What a read is routed by. The client answers for a node, or fails. -/
structure HybridRouter (R : Type) where
  shardOf : NexoraId → Nat
  assignments : Nat → Option ShardAssignment
  remoteClient : Option (NodeName → Except RouterError R)

inductive Served (R : Type) where
  | owner (result : R)
  | follower (node : NodeName) (result : R)

def ReadConcern.admits (concern : ReadConcern) (progress : Option ReplicationProgress)
    (shard requiredSeq : Nat) (follower : NodeName) : Bool :=
  match concern, progress with
  | .majority, some progress =>
    (requiredSeq = 0 || progress.replicaCaughtUp shard follower requiredSeq) &&
      (progress.getCommitIndex shard).all fun commitIndex =>
        commitIndex = 0 || progress.replicaCaughtUp shard follower commitIndex
  | _, _ => true

def readFollowers {R : Type} (admits : NodeName → Bool)
    (execute : NodeName → Except RouterError R) :
    List NodeName → Option (NodeName × R)
  | [] => none
  | follower :: followers =>
    if admits follower then
      match execute follower with
      | .ok result => some (follower, result)
      | .error _ => readFollowers admits execute followers
    else readFollowers admits execute followers

def readWithConcern {R : Type} (router : HybridRouter R) (qid : NexoraId) (concern : ReadConcern)
    (progress : Option ReplicationProgress) (session : Option SessionReadTracker) :
    Except RouterError (Served R) :=
  let shard := router.shardOf qid
  match router.assignments shard with
  | none => .error (.nodeNotFound s!"no assignment for shard {shard}")
  | some assignment =>
    match router.remoteClient with
    | none => .error (.nodeNotFound "router has no remote client")
    | some execute =>
      let requiredSeq := (session.map fun tracker => tracker.requiredSeq shard).getD 0
      match execute assignment.owner with
      | .ok result => .ok (.owner result)
      | .error e =>
        if concern = .linearizable then .error e
        else
          match readFollowers (concern.admits progress shard requiredSeq) execute assignment.replicas with
          | some (follower, result) => .ok (.follower follower result)
          | none =>
            let name := concern.name
            let count := assignment.replicas.length
            .error (.nodeNotFound (s!"no replica satisfied {name} read for shard {shard} " ++
              s!"(owner + {count} followers unreachable or too stale)"))

/-! ### Who answers -/

theorem admits_of_readFollowers {R : Type} {admits : NodeName → Bool}
    {execute : NodeName → Except RouterError R} {followers : List NodeName} {node : NodeName}
    {result : R} (h : readFollowers admits execute followers = some (node, result)) :
    admits node := by
  induction followers with
  | nil => exact absurd h (by simp [readFollowers])
  | cons follower followers ih =>
    rw [readFollowers] at h
    split at h
    · next hadmits =>
      split at h
      · cases h
        exact hadmits
      · exact ih h
    · exact ih h

theorem admits_of_readWithConcern {R : Type} {router : HybridRouter R} {qid : NexoraId}
    {concern : ReadConcern} {progress : Option ReplicationProgress}
    {session : Option SessionReadTracker} {node : NodeName} {result : R}
    (h : readWithConcern router qid concern progress session = .ok (.follower node result)) :
    concern.admits progress (router.shardOf qid)
      ((session.map fun tracker => tracker.requiredSeq (router.shardOf qid)).getD 0) node := by
  unfold readWithConcern at h
  simp only at h
  split at h
  · exact absurd h (by simp)
  · split at h
    · exact absurd h (by simp)
    · split at h
      · exact absurd h (by simp)
      · split at h
        · exact absurd h (by simp)
        · split at h
          · next hread =>
            cases h
            exact admits_of_readFollowers hread
          · exact absurd h (by simp)

namespace SessionReadTracker

def ofWrites (writes : List (Nat × Nat)) : SessionReadTracker :=
  writes.foldl (fun tracker write => noteWrite tracker write.1 write.2) .empty

theorem requiredSeq_noteWrite (tracker : SessionReadTracker) (shard' seq shard : Nat) :
    (tracker.noteWrite shard' seq).requiredSeq shard =
      if shard = shard' then max (tracker.requiredSeq shard) seq else tracker.requiredSeq shard := by
  unfold noteWrite
  split
  · next hzero =>
    rw [hzero]
    split
    · exact (Nat.max_zero _).symm
    · rfl
  · unfold requiredSeq
    rw [Table.find?_put]
    split
    · next heq =>
      rw [heq]
      cases tracker.find? shard' with
      | none => exact (Nat.zero_max seq).symm
      | some v => rfl
    · rfl

theorem le_requiredSeq_ofWrites {writes : List (Nat × Nat)} {shard seq : Nat}
    (h : (shard, seq) ∈ writes) :
    seq ≤ (ofWrites writes).requiredSeq shard := by
  induction writes using List.reverseRecOn with
  | nil => exact absurd h List.not_mem_nil
  | append_singleton writes write ih =>
    rw [ofWrites, List.foldl_append, List.foldl_cons, List.foldl_nil, requiredSeq_noteWrite]
    rcases List.mem_append.mp h with hold | hlast
    · have hle := ih hold
      split
      · exact hle.trans (le_max_left _ _)
      · exact hle
    · obtain rfl := List.mem_singleton.mp hlast
      rw [if_pos rfl]
      exact le_max_right _ _

end SessionReadTracker

/-! ### What the follower has -/

namespace ReplicaWriter
variable {w : ReplicaWriter} {shard : Nat}

theorem mem_taken_of_replicaCaughtUp (h : w.Contiguous shard) {progress : ReplicationProgress}
    (hprogress : w.progress = some progress) {node : NodeName} {last seq : Nat}
    (hcaughtUp : progress.replicaCaughtUp shard node last) (hpos : 0 < seq) (hle : seq ≤ last) :
    (shard, node, seq) ∈ w.taken := by
  unfold replicaCaughtUp at hcaughtUp
  rw [Bool.or_eq_true, decide_eq_true_eq] at hcaughtUp
  rcases hcaughtUp with hzero | hany
  · omega
  · rw [any_eq_true] at hany
    obtain ⟨acked, hacked, hlast⟩ := hany
    obtain ⟨p, hp, hfind⟩ := bind_eq_some_iff.mp hacked
    have hentry : w.shardProgress shard = p := by
      simp [shardProgress, hprogress, entry, hp]
    refine h (node, acked) ?_ seq hpos (hle.trans (of_decide_eq_true hlast))
    rw [hentry]
    exact Table.find?_eq_some_iff.mp hfind

theorem isSome_progress_step (label : ReplicationStep) (h : w.progress.isSome) :
    (w.step label).progress.isSome := by
  cases label with
  | owner shard =>
    rw [step, recordOwner]
    split
    · rw [isSome_map]
      exact h
    · exact h
  | follower shard node seq => rw [step]; split <;> exact h
  | ack shard node seq =>
    rw [step]
    split
    · rw [isSome_map]
      exact h
    · exact h

/-- **Majority reads.** With a tracker of the acknowledgements, and if the followers acknowledge in
order, a follower that answers a majority read has taken every write up to the commit index and up
to the last write of the session. -/
theorem mem_taken_of_majority_read {replicaSets : Nat → Option ReplicaSet}
    {writeConcern : WriteConcern} {logged : Bool} {inits : List (Nat × List NodeName)}
    {steps : List ReplicationStep}
    (hsteps : Along step (InOrder shard) (start replicaSets writeConcern logged (some inits)) steps)
    {R : Type} {router : HybridRouter R} {qid : NexoraId} (hshard : router.shardOf qid = shard)
    {session : Option (List (Nat × Nat))} {node : NodeName} {result : R} :
    let w := run step (start replicaSets writeConcern logged (some inits)) steps
    readWithConcern router qid .majority w.progress (session.map ofWrites) = .ok (.follower node result) →
      ∀ seq, 0 < seq →
        seq ≤ w.commitIndex shard ∨ (∃ writes last, session = some writes ∧ (shard, last) ∈ writes ∧ seq ≤ last) →
          (shard, node, seq) ∈ w.taken := by
  intro w hread seq hpos hwritten
  have hcontiguous : w.Contiguous shard := contiguous_of_along hsteps
  have hsome : w.progress.isSome :=
    @run_preserves _ _ step (fun w => w.progress.isSome) (fun _ label => isSome_progress_step label) _ rfl steps
  obtain ⟨progress, hprogress⟩ := isSome_iff_exists.mp hsome
  have hadmits := admits_of_readWithConcern hread
  rw [hshard, show w.progress = some progress from hprogress, ReadConcern.admits, Bool.and_eq_true] at hadmits
  obtain ⟨hsession, hcommit⟩ := hadmits
  rcases hwritten with hle | ⟨writes, last, rfl, hmem, hle⟩
  · rw [commitIndex, show w.progress = some progress from hprogress, bind_some] at hle
    cases hindex : progress.getCommitIndex shard with
    | none =>
      rw [hindex, getD_none] at hle
      omega
    | some index =>
      rw [hindex, getD_some] at hle
      rw [hindex, all_some, Bool.or_eq_true, decide_eq_true_eq] at hcommit
      refine mem_taken_of_replicaCaughtUp hcontiguous hprogress (hcommit.resolve_left ?_) hpos hle
      omega
  · have hrequired := hle.trans (le_requiredSeq_ofWrites hmem)
    rw [Bool.or_eq_true, decide_eq_true_eq] at hsession
    refine mem_taken_of_replicaCaughtUp hcontiguous hprogress (hsession.resolve_left ?_) hpos hrequired
    exact (hpos.trans_le hrequired).ne'

def ownerLost : HybridRouter Unit where
  shardOf := fun _ => 0
  assignments := fun _ => some ⟨"n0", ["n1", "n2"]⟩
  remoteClient := some fun node => if node = "n0" then .error (.remote "unreachable") else .ok ()

theorem mem_taken_first_write :
    let w := run step
      (start (fun _ => some ⟨"n0", ["n1", "n2"], by decide, by decide⟩) .majority true (some []))
      [.owner 0, .follower 0 "n1" 1, .ack 0 "n1" 1]
    readWithConcern ownerLost ⟨[]⟩ .majority w.progress ((some [(0, 1)]).map ofWrites) =
        .ok (.follower "n1" ()) ∧ (0, "n1", 1) ∈ w.taken := by
  intro w
  have hread : readWithConcern ownerLost ⟨[]⟩ .majority w.progress ((some [(0, 1)]).map ofWrites) =
      .ok (.follower "n1" ()) := rfl
  refine ⟨hread, mem_taken_of_majority_read ?_ rfl hread 1 Nat.one_pos
    (.inr ⟨[(0, 1)], 1, rfl, List.mem_singleton_self _, le_rfl⟩)⟩
  refine ⟨trivial, trivial, fun _ seq hpos hlt => ?_, trivial⟩
  omega

def firstWrite : ReplicaWriter × Except RouterError WriteStatus :=
  (start (fun _ => some ⟨"n0", ["n1", "n2"], by decide, by decide⟩) .majority true (some [])).quorumWrite
    ⟨0, false, fun node => if node = "n1" then .failed else .succeeded, 2⟩

def secondWrite : ReplicaWriter × Except RouterError WriteStatus :=
  firstWrite.1.quorumWrite ⟨0, false, fun node => if node = "n1" then .succeeded else .failed, 2⟩

/-- Both writes are committed by a majority. The first follower has acknowledged the second one
only, and answers a read although the first is at the commit index. -/
theorem stale_majority_read :
    firstWrite.2 = .ok (.committedQuorum 2 3) ∧ secondWrite.2 = .ok (.committedQuorum 2 3) ∧
      secondWrite.1.commitIndex 0 = 1 ∧
      readWithConcern ownerLost ⟨[]⟩ .majority secondWrite.1.progress (some (SessionReadTracker.ofWrites [(0, 1), (0, 2)])) =
        .ok (.follower "n1" ()) ∧
      (0, "n1", 1) ∉ secondWrite.1.taken :=
  ⟨rfl, rfl, by decide, rfl, by decide⟩

end ReplicaWriter
end Nexora.Cluster
