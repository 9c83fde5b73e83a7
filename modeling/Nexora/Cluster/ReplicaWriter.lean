import Nexora.Cluster.ReplicationProgress
import Mathlib.Data.Finset.Lattice.Lemmas

/-!
# Quorum writes

The owner of a shard numbers each write, sends it to the followers, and records their
acknowledgements until the write concern is met or the time is up
(`nexora-zenoh/src/replica_writer.rs`). A quorum write is a run of small steps, which those of other
writes may interleave with.
-/

namespace Nexora.Cluster
open Lib Finset

structure ReplicaSet where
  owner : NodeName
  followers : List NodeName
  nodup : followers.Nodup
  owner_notMem : owner ∉ followers

namespace ReplicaSet

def totalNodes (set : ReplicaSet) : Nat := 1 + set.followers.length

def allNodes (set : ReplicaSet) : List NodeName := set.owner :: set.followers

end ReplicaSet

inductive WriteConcern where
  | majority
  | all
  | one

def WriteConcern.minAcks (totalReplicas : Nat) : WriteConcern → Nat
  | .majority => totalReplicas / 2 + 1
  | .all => totalReplicas
  | .one => 1

inductive WriteStatus where
  | committedLocal
  | committedQuorum (acked total : Nat)
  | failed (acked required : Nat)
  | alreadyCommitted
deriving DecidableEq

inductive RouterError where
  | quorumFailed (acked required : Nat)
  | nodeNotFound (message : String)
  | remote (message : String)
deriving DecidableEq

def RouterError.text : RouterError → String
  | .quorumFailed acked required =>
    "quorum write failed: acked=" ++ toString acked ++ ", required=" ++ toString required
  | .nodeNotFound message => "node not found: " ++ message
  | .remote message => "remote execution failed: " ++ message

/-- The writer, with the writes that each follower has taken. Of the replication log, if there is
one, only the highest number of each shard counts here. -/
structure ReplicaWriter where
  replicaSets : Nat → Option ReplicaSet
  writeConcern : WriteConcern
  replicationLog : Option (Nat → Nat)
  progress : Option ReplicationProgress
  taken : Finset (Nat × NodeName × Nat)

/-- How a write fares with a follower; an open circuit breaker skips it. -/
inductive FollowerOutcome where
  | skipped
  | failed
  | succeeded
deriving DecidableEq

/-- One call: whether the request is a known duplicate, how the followers fare, and how many of them
the writer has heard when its time is up. -/
structure QuorumWrite where
  shard : Nat
  duplicate : Bool
  outcome : NodeName → FollowerOutcome
  heard : Nat

def collectAcks {A : Type} (record : NodeName → A → A) (required : Nat) :
    List (NodeName × Bool) → Nat → A → Nat × A
  | [], acks, progress => (acks, progress)
  | (node, true) :: answers, acks, progress =>
    if required ≤ acks + 1 then (acks + 1, record node progress)
    else collectAcks record required answers (acks + 1) (record node progress)
  | (_, false) :: answers, acks, progress => collectAcks record required answers acks progress

namespace ReplicaWriter

def nextSeq (w : ReplicaWriter) (shard : Nat) : Nat :=
  w.replicationLog.elim 0 fun highWater => highWater shard + 1

def recordOwner (w : ReplicaWriter) (shard : Nat) : ReplicaWriter :=
  match w.replicationLog with
  | some highWater =>
    let seq := highWater shard + 1
    { w with
      replicationLog := some (Function.update highWater shard seq)
      progress := w.progress.map fun progress => progress.recordWrite shard seq }
  | none => w

def answers (set : ReplicaSet) (call : QuorumWrite) : List (NodeName × Bool) :=
  (set.followers.filter fun node => call.outcome node ≠ .skipped).map fun node => (node, call.outcome node = .succeeded)

def quorumWrite (w : ReplicaWriter) (call : QuorumWrite) :
    ReplicaWriter × Except RouterError WriteStatus :=
  if call.duplicate then (w, .ok .alreadyCommitted)
  else
    match w.replicaSets call.shard with
    | none => (w, .ok .committedLocal)
    | some set =>
      if set.followers = [] then (w, .ok .committedLocal)
      else
        let total := set.totalNodes
        let required := w.writeConcern.minAcks total
        let seq := w.nextSeq call.shard
        let written := w.recordOwner call.shard
        let sent := answers set call
        let successes := (sent.filter fun answer => answer.2).map Prod.fst
        let record := fun node (progress : Option ReplicationProgress) =>
          if 0 < seq then progress.map fun progress => progress.recordAck call.shard node seq else progress
        -- The owner's own acknowledgement is the first.
        let result := collectAcks record required (sent.take call.heard) 1 written.progress
        let taken := if 0 < seq then (successes.map fun node => (call.shard, node, seq)).toFinset else ∅
        ({ written with progress := result.2, taken := written.taken ∪ taken },
          if required ≤ result.1 then .ok (.committedQuorum result.1 total) else .error (.quorumFailed result.1 required))

end ReplicaWriter

/-! ### Small steps -/

inductive ReplicationStep where
  | owner (shard : Nat)
  | follower (shard : Nat) (node : NodeName) (seq : Nat)
  | ack (shard : Nat) (node : NodeName) (seq : Nat)

namespace ReplicaWriter

def highWater (w : ReplicaWriter) (shard : Nat) : Nat :=
  w.replicationLog.elim 0 fun highWater => highWater shard

def followers (w : ReplicaWriter) (shard : Nat) : List NodeName :=
  (w.replicaSets shard).elim [] ReplicaSet.followers

def step (w : ReplicaWriter) : ReplicationStep → ReplicaWriter
  | .owner shard => w.recordOwner shard
  | .follower shard node seq =>
    if node ∈ w.followers shard ∧ 0 < seq ∧
      seq ≤ w.highWater shard then { w with taken := insert (shard, node, seq) w.taken }
    else w
  | .ack shard node seq =>
    if (shard, node, seq) ∈ w.taken then
      { w with progress := w.progress.map fun progress => progress.recordAck shard node seq }
    else w

end ReplicaWriter

def collected (required : Nat) : List (NodeName × Bool) → Nat → List NodeName
  | [], _ => []
  | (node, true) :: answers, acks => if required ≤ acks + 1 then [node] else node :: collected required answers (acks + 1)
  | (_, false) :: answers, acks => collected required answers acks

theorem snd_collectAcks {A : Type} (record : NodeName → A → A) (required : Nat)
    (answers : List (NodeName × Bool)) (acks : Nat) (progress : A) :
    (collectAcks record required answers acks progress).2 =
      (collected required answers acks).foldl (fun progress node => record node progress) progress := by
  induction answers generalizing acks progress with
  | nil => rfl
  | cons answer answers ih =>
    obtain ⟨node, success⟩ := answer
    cases success with
    | false => exact ih acks progress
    | true =>
      rw [collectAcks, collected]
      split
      · rfl
      · exact ih (acks + 1) _

theorem mem_of_mem_collected {required : Nat} {answers : List (NodeName × Bool)} {acks : Nat}
    {node : NodeName} (h : node ∈ collected required answers acks) : (node, true) ∈ answers := by
  induction answers generalizing acks with
  | nil => exact absurd h List.not_mem_nil
  | cons answer answers ih =>
    obtain ⟨node', success⟩ := answer
    cases success with
    | false => exact List.mem_cons_of_mem _ (ih h)
    | true =>
      rw [collected] at h
      split at h
      · rw [List.mem_singleton.mp h]
        exact List.mem_cons_self
      · rcases List.mem_cons.mp h with rfl | hrest
        · exact List.mem_cons_self
        · exact List.mem_cons_of_mem _ (ih hrest)

namespace ReplicaWriter
variable {w : ReplicaWriter} {shard seq : Nat}

theorem followers_recordOwner : (w.recordOwner shard).followers = w.followers := by
  unfold recordOwner
  split <;> rfl

theorem taken_recordOwner : (w.recordOwner shard).taken = w.taken := by
  unfold recordOwner
  split <;> rfl

theorem run_follower (w : ReplicaWriter) (nodes : List NodeName)
    (hnodes : ∀ node ∈ nodes, node ∈ w.followers shard) (hpos : 0 < seq)
    (hseq : seq ≤ w.highWater shard) :
    run step w (nodes.map fun node => .follower shard node seq) =
      { w with taken := w.taken ∪ (nodes.map fun node => (shard, node, seq)).toFinset } := by
  induction nodes generalizing w with
  | nil =>
    show w = { w with taken := w.taken ∪ ∅ }
    rw [union_empty]
  | cons node nodes ih =>
    have hstep : w.step (.follower shard node seq) = { w with taken := insert (shard, node, seq) w.taken } :=
      if_pos ⟨hnodes node List.mem_cons_self, hpos, hseq⟩
    rw [List.map_cons, run_cons, hstep,
      ih { w with taken := insert (shard, node, seq) w.taken } (fun node' hnode' => hnodes node' (List.mem_cons_of_mem _ hnode'))
        hseq]
    simp [insert_union, union_insert]

theorem run_ack (w : ReplicaWriter) (nodes : List NodeName)
    (hnodes : ∀ node ∈ nodes, (shard, node, seq) ∈ w.taken) :
    run step w (nodes.map fun node => .ack shard node seq) =
      { w with
        progress :=
  nodes.foldl (fun progress node => progress.map (·.recordAck shard node seq)) w.progress } := by
  induction nodes generalizing w with
  | nil => rfl
  | cons node nodes ih =>
    have hstep : w.step (.ack shard node seq) = { w with progress := w.progress.map (·.recordAck shard node seq) } :=
      if_pos (hnodes node List.mem_cons_self)
    rw [List.map_cons, run_cons, hstep]
    exact ih _ fun node' hnode' => hnodes node' (List.mem_cons_of_mem _ hnode')

/-- The small steps of a call: the owner's write, the followers that take it, and the
acknowledgements recorded. -/
def stepsOf (w : ReplicaWriter) (call : QuorumWrite) : List ReplicationStep :=
  match w.replicaSets call.shard with
  | none => []
  | some set =>
    if call.duplicate ∨ set.followers = [] ∨ w.replicationLog.isNone then []
    else
      let seq := w.nextSeq call.shard
      let sent := answers set call
      let heard := collected (w.writeConcern.minAcks set.totalNodes) (sent.take call.heard) 1
      .owner call.shard ::
        ((((sent.filter fun answer => answer.2).map Prod.fst).map fun node => .follower call.shard node seq) ++
          heard.map fun node => .ack call.shard node seq)

/-- **A quorum write** is a run of small steps. -/
theorem quorumWrite_eq_run (w : ReplicaWriter) (call : QuorumWrite) :
    (w.quorumWrite call).1 = run step w (w.stepsOf call) := by
  unfold quorumWrite stepsOf
  by_cases hduplicate : call.duplicate
  · rw [if_pos hduplicate]
    split
    · rfl
    · rw [if_pos (.inl hduplicate)]
      rfl
  rw [if_neg hduplicate]
  cases hset : w.replicaSets call.shard with
  | none => rfl
  | some set =>
    simp only
    by_cases hempty : set.followers = []
    · rw [if_pos hempty, if_pos (.inr (.inl hempty))]
      rfl
    rw [if_neg hempty]
    cases hlog : w.replicationLog with
    | none =>
      have hseq : w.nextSeq call.shard = 0 := by rw [nextSeq, hlog]; rfl
      have hwritten : w.recordOwner call.shard = w := by rw [recordOwner, hlog]
      have hkeep : ∀ (nodes : List NodeName) (progress : Option ReplicationProgress),
          nodes.foldl (fun progress _ => progress) progress = progress := fun nodes _ => List.foldl_fixed nodes
      simp only [hseq, hwritten, lt_irrefl, if_false, snd_collectAcks, hkeep, union_empty, Option.isNone_none, or_true,
        if_true]
      rfl
    | some highWater =>
      have hseq : w.nextSeq call.shard = highWater call.shard + 1 := by rw [nextSeq, hlog]; rfl
      have hpos : 0 < w.nextSeq call.shard := hseq ▸ Nat.succ_pos _
      have hhigh : w.nextSeq call.shard ≤ (w.recordOwner call.shard).highWater call.shard := by
        rw [hseq, recordOwner, hlog, ReplicaWriter.highWater]
        simp
      have hnone : ¬ (call.duplicate ∨ set.followers = [] ∨ (some highWater).isNone) := by simp [hduplicate, hempty]
      rw [if_neg hnone, run_cons, run_append]
      show _ = run step (run step (w.recordOwner call.shard) _) _
      have hsent : ∀ node ∈ ((answers set call).filter fun answer => answer.2).map Prod.fst,
          node ∈ (w.recordOwner call.shard).followers call.shard := by
        intro node hnode
        obtain ⟨answer, hanswer, rfl⟩ := List.mem_map.mp hnode
        obtain ⟨follower, hfollower, rfl⟩ := List.mem_map.mp (List.mem_filter.mp hanswer).1
        rw [followers_recordOwner, followers, hset]
        exact (List.mem_filter.mp hfollower).1
      rw [run_follower _ _ hsent hpos hhigh, run_ack]
      · simp [hpos, snd_collectAcks]
      · intro node hnode
        have hmem := List.mem_of_mem_take (mem_of_mem_collected hnode)
        refine mem_union_right _ (List.mem_toFinset.mpr (List.mem_map.mpr ⟨node, ?_, rfl⟩))
        exact List.mem_map.mpr ⟨(node, true), List.mem_filter.mpr ⟨hmem, rfl⟩, rfl⟩

end ReplicaWriter

/-! ### Who a write is sent to -/

namespace ReplicaWriter
variable (w : ReplicaWriter)

def sentTo (call : QuorumWrite) : List NodeName :=
  ((w.replicaSets call.shard).elim [] (answers · call)).map Prod.fst

/-- The nodes that the quorum of a write is counted over: without a registered set the node
itself. -/
def countedOver (localNode : NodeName) (shard : Nat) : List NodeName :=
  (w.replicaSets shard).elim [localNode] ReplicaSet.allNodes

variable {w} {call : QuorumWrite}

theorem mem_sentTo_iff {node : NodeName} :
    node ∈ w.sentTo call ↔ node ∈ w.followers call.shard ∧ call.outcome node ≠ .skipped := by
  unfold sentTo followers
  cases w.replicaSets call.shard with
  | none => simp
  | some set => simp [answers]

@[simp] theorem replicaSets_quorumWrite : (w.quorumWrite call).1.replicaSets = w.replicaSets := by
  have hrecord : (w.recordOwner call.shard).replicaSets = w.replicaSets := by
    unfold recordOwner
    split <;> rfl
  unfold quorumWrite
  split
  · rfl
  · split
    · rfl
    · split
      · rfl
      · exact hrecord

end ReplicaWriter
end Nexora.Cluster
