import Nexora.Cluster.ReplicationLog
import Nexora.Cluster.ReplicaWriter

/-!
# Quorum writes in two phases

The second kind of quorum write sends the write to the followers first, and applies it at the owner
when enough of them have taken it (`quorum_write_two_phase` in `replica_writer.rs`). Nothing is
taken back, neither the number in the owner's log nor what a follower has applied.
-/

namespace Nexora.Cluster
open Lib

structure QuorumSet where
  owner : NodeName
  followers : List NodeName
  minAck : Nat

namespace QuorumSet

/-- More than half of the followers, rounded up, and the owner. -/
def new (owner : NodeName) (followers : List NodeName) : QuorumSet :=
  ⟨owner, followers, (followers.length + 1) / 2 + 1⟩

def totalNodes (set : QuorumSet) : Nat := 1 + set.followers.length

def quorumReached (set : QuorumSet) (ackCount : Nat) : Prop := set.minAck ≤ ackCount

instance (set : QuorumSet) (ackCount : Nat) : Decidable (set.quorumReached ackCount) :=
  inferInstanceAs (Decidable (_ ≤ _))

end QuorumSet

/-- How a write fares with a follower: one that says so has applied it; one that answers with an
error, or not at all, may have applied it or not. -/
inductive FollowerReply where
  | ok
  | error (applied : Bool)
  | silent (applied : Bool)

namespace FollowerReply

def applied : FollowerReply → Bool
  | .ok => true
  | .error applied => applied
  | .silent applied => applied

def isSilent : FollowerReply → Bool
  | .silent _ => true
  | _ => false

def success : FollowerReply → Bool
  | .ok => true
  | _ => false

end FollowerReply
variable {Op : Type}

/-- One call: the replies of the followers, how many of them have come when the time is up, and what
the callback that applies the write at the owner answers, if there is one. -/
structure TwoPhaseWrite (Op : Type) where
  shard : ShardId
  op : Op
  reply : NodeName → FollowerReply
  heard : Nat
  ownerApply : Option (Except String Unit)

structure TwoPhaseWriter (Op : Type) where
  replicaSets : ShardId → Option QuorumSet
  replicationLog : Option (ShardReplicationLog Op)

structure TwoPhaseResult (Op : Type) where
  replicationLog : Option (ShardReplicationLog Op)
  applied : List NodeName
  answer : Except RouterError WriteStatus

/-- The acknowledgements in time. The replies are awaited in the order of the followers, so that a
follower that does not reply holds up those behind it. -/
def followerAcks (set : QuorumSet) (call : TwoPhaseWrite Op) : Nat :=
  ((set.followers.take call.heard).takeWhile fun node => !(call.reply node).isSilent).countP fun node =>
    (call.reply node).success

def quorumWriteTwoPhase (w : TwoPhaseWriter Op) (call : TwoPhaseWrite Op) : TwoPhaseResult Op :=
  match w.replicaSets call.shard with
  | none => ⟨w.replicationLog, [], .ok .committedLocal⟩
  | some set =>
    if set.followers = [] then ⟨w.replicationLog, [], .ok .committedLocal⟩
    else
      let log := w.replicationLog.map fun log => (log.recordOwner call.shard call.op).1
      let applied := set.followers.filter fun node => (call.reply node).applied
      let acks := followerAcks set call
      let potential := acks + 1
      if set.quorumReached potential then
        match call.ownerApply with
        | some (.ok ()) => ⟨log, set.owner :: applied, .ok (.committedQuorum potential set.totalNodes)⟩
        | some (.error e) => ⟨log, applied, .error (.remote ("owner apply failed: " ++ e))⟩
        -- The caller applies the write.
        | none => ⟨log, applied, .ok (.committedQuorum potential set.totalNodes)⟩
      else ⟨log, applied, .ok (.failed acks set.minAck)⟩

def TwoPhaseResult.Failed (result : TwoPhaseResult Op) : Prop :=
  (∃ acked required, result.answer = .ok (.failed acked required)) ∨ ∃ e, result.answer = .error e

def TwoPhaseResult.NoTrace (result : TwoPhaseResult Op) (call : TwoPhaseWrite Op) : Prop :=
  result.applied = [] ∧ ∀ log ∈ result.replicationLog, ∀ entry ∈ (log.shardLog call.shard).entries,
    entry.2 ≠ call.op

/-- The write goes through, or it cannot leave anything behind: a shard with followers hears from
enough of them in time and the owner can apply the write, or there is no log and no follower applies
it. -/
def LeavesNothing (w : TwoPhaseWriter Op) (call : TwoPhaseWrite Op) : Prop :=
  ∀ set, w.replicaSets call.shard = some set → set.followers ≠ [] →
    (set.quorumReached (followerAcks set call + 1) ∧ ∀ e, call.ownerApply ≠ some (.error e)) ∨
      (w.replicationLog = none ∧ ∀ node ∈ set.followers, (call.reply node).applied = false)

theorem exists_entry_recordOwner (log : ShardReplicationLog Op) (shard : ShardId) (op : Op) :
    ∃ entry ∈ ((log.recordOwner shard op).1.shardLog shard).entries, entry.2 = op := by
  have hshard := log.shardLog_record (.recordOwner shard op) shard
  rw [if_pos (show (LogCall.recordOwner shard op).shard = shard from rfl)] at hshard
  refine ⟨((log.shardLog shard).highWater + 1, op), ?_, rfl⟩
  have hpush : (log.recordOwner shard op).1.shardLog shard =
      (log.shardLog shard).push log.maxEntries ((log.shardLog shard).highWater + 1) op := hshard
  have hlast : ((log.shardLog shard).entries ++ [((log.shardLog shard).highWater + 1, op)]).length - log.maxEntries ≤
      (log.shardLog shard).entries.length := by
    have := log.maxEntries_pos
    rw [List.length_append, List.length_singleton]
    omega
  rw [hpush, ShardLog.push, List.drop_append_of_le_length hlast]
  exact List.mem_append_right _ (List.mem_singleton_self _)

theorem noTrace_iff {w : TwoPhaseWriter Op} {call : TwoPhaseWrite Op} {set : QuorumSet}
    {result : TwoPhaseResult Op}
    (hlog : result.replicationLog = w.replicationLog.map fun log => (log.recordOwner call.shard call.op).1)
    (happlied : result.applied = set.followers.filter fun node => (call.reply node).applied) :
    result.NoTrace call ↔ w.replicationLog = none ∧ ∀ node ∈ set.followers, (call.reply node).applied = false := by
  have hfollowers :
      result.applied = [] ↔ ∀ node ∈ set.followers, (call.reply node).applied = false := by
    rw [happlied, List.filter_eq_nil_iff]
    simp
  unfold TwoPhaseResult.NoTrace
  rw [hfollowers, and_comm, hlog]
  refine and_congr_left fun _ => ?_
  cases w.replicationLog with
  | none => exact iff_of_true (fun _ hnone => absurd hnone (Option.not_mem_none _)) rfl
  | some log =>
    obtain ⟨entry, hentry, hop⟩ := exists_entry_recordOwner log call.shard call.op
    exact iff_of_false (fun h => h _ rfl entry hentry hop) (Option.some_ne_none log)

/-- **A write that fails leaves no trace** exactly when it can leave none. -/
theorem noTrace_of_failed_iff (w : TwoPhaseWriter Op) (call : TwoPhaseWrite Op) :
    ((quorumWriteTwoPhase w call).Failed → (quorumWriteTwoPhase w call).NoTrace call) ↔
    LeavesNothing w call := by
  have hcommitted :
    ∀ {log : Option (ShardReplicationLog Op)} {applied : List NodeName} {status : WriteStatus},
      (∀ acked required, status ≠ .failed acked required) → ¬ (TwoPhaseResult.mk log applied (.ok status)).Failed := by
    rintro log applied status hstatus (⟨acked, required, h⟩ | ⟨e, h⟩)
    · cases h
      exact hstatus acked required rfl
    · cases h
  unfold quorumWriteTwoPhase LeavesNothing
  cases hset : w.replicaSets call.shard with
  | none =>
    refine iff_of_true (fun hfailed => absurd hfailed (hcommitted nofun)) fun set hnone => ?_
    cases hnone
  | some set =>
    simp only [Option.some.injEq, forall_eq']
    by_cases hempty : set.followers = []
    · rw [if_pos hempty]
      exact iff_of_true (fun hfailed => absurd hfailed (hcommitted nofun)) fun hne => absurd hempty hne
    · rw [if_neg hempty, imp_iff_right hempty]
      by_cases hquorum : set.quorumReached (followerAcks set call + 1)
      · rw [if_pos hquorum]
        rcases happly : call.ownerApply with _ | e | ⟨⟩
        · exact iff_of_true (fun hfailed => absurd hfailed (hcommitted nofun)) (.inl ⟨hquorum, fun e => nofun⟩)
        · -- The quorum has been reached, and the owner cannot apply the write.
          have hfailed : ∀ {log : Option (ShardReplicationLog Op)} {applied : List NodeName} {error : RouterError},
              (TwoPhaseResult.mk log applied (.error error)).Failed := .inr ⟨_, rfl⟩
          rw [imp_iff_right hfailed, noTrace_iff rfl rfl, or_iff_right]
          exact fun h => h.2 e rfl
        · exact iff_of_true (fun hfailed => absurd hfailed (hcommitted nofun)) (.inl ⟨hquorum, fun e => nofun⟩)
      · rw [if_neg hquorum]
        have hfailed : ∀ {log : Option (ShardReplicationLog Op)} {applied : List NodeName} {acked required : Nat},
            (TwoPhaseResult.mk log applied (.ok (.failed acked required))).Failed := .inl ⟨_, _, rfl⟩
        rw [imp_iff_right hfailed, noTrace_iff rfl rfl, or_iff_right]
        exact fun h => hquorum h.1

def loggedWriter : TwoPhaseWriter String where
  replicaSets := fun _ => some (.new "a" ["b", "c", "d"])
  replicationLog := some (.new 100)

/-- **What a failed write leaves.** One of three followers applies the write and the others answer
with an error. The quorum is missed; the follower keeps the write, and the owner's log holds it. -/
theorem failed_write_is_kept :
    let result := quorumWriteTwoPhase loggedWriter
      ⟨0, "x", fun node => if node = "b" then .ok else .error false, 3, none⟩
    result.answer = .ok (.failed 1 3) ∧ result.applied = ["b"] ∧
      (result.replicationLog.map fun log => (log.shardLog 0).entries) = some [(1, "x")] := by
  refine ⟨rfl, ?_, ?_⟩ <;> decide

end Nexora.Cluster
