import Nexora.Lib.Quorum
import Nexora.Lib.Table
import Mathlib.Data.String.Basic

/-!
# What the replicas of a shard have acknowledged

The owner of a shard keeps the highest number that each replica has acknowledged, and from these the
commit index (`nexora-zenoh/src/replication_progress.rs`). Unless the shard was initialised, a
replica is counted once it has acknowledged something.
-/

namespace Nexora.Cluster
open Lib Option

abbrev NodeName := String

structure ShardProgress where
  shardId : Nat
  commitIndex : Nat
  lastWritten : Nat
  replicaProgress : Table NodeName Nat

namespace ShardProgress

def new (shardId : Nat) : ShardProgress := ⟨shardId, 0, 0, .empty⟩

def recordWrite (p : ShardProgress) (seq : Nat) : ShardProgress :=
  { p with lastWritten := max p.lastWritten seq }

def raise (p : ShardProgress) (replica : NodeName) (seq : Nat) : Table NodeName Nat :=
  p.replicaProgress.put replica (((p.replicaProgress.find? replica).map fun v => max v seq).getD seq)

/-- The quorum is a majority of the replicas that have an entry. -/
def recordAck (p : ShardProgress) (replica : NodeName) (seq : Nat) : ShardProgress :=
  let replicaProgress := p.raise replica seq
  let rf := replicaProgress.rows.length
  let quorumSize := rf / 2 + 1
  match nthLargest quorumSize (replicaProgress.rows.map Prod.snd) with
  | some newCommitIndex =>
    { p with
      replicaProgress := replicaProgress
      commitIndex := if p.commitIndex < newCommitIndex then newCommitIndex else p.commitIndex }
  | none => { p with replicaProgress := replicaProgress }

end ShardProgress

abbrev ReplicationProgress := Table Nat ShardProgress

namespace ReplicationProgress

def initShard (progress : ReplicationProgress) (shard : Nat) (replicas : List NodeName) :
    ReplicationProgress :=
  progress.put shard ⟨shard, 0, 0, Table.empty.putAll (replicas.map fun replica => (replica, 0))⟩

def entry (progress : ReplicationProgress) (shard : Nat) : ShardProgress :=
  (progress.find? shard).getD (.new shard)

def recordWrite (progress : ReplicationProgress) (shard seq : Nat) : ReplicationProgress :=
  progress.put shard ((progress.entry shard).recordWrite seq)

def recordAck (progress : ReplicationProgress) (shard : Nat) (replica : NodeName) (seq : Nat) :
    ReplicationProgress :=
  progress.put shard ((progress.entry shard).recordAck replica seq)

def getCommitIndex (progress : ReplicationProgress) (shard : Nat) : Option Nat :=
  (progress.find? shard).map ShardProgress.commitIndex

def replicaCaughtUp (progress : ReplicationProgress) (shard : Nat) (replica : NodeName)
    (seq : Nat) : Bool :=
  seq = 0 || ((progress.find? shard).bind fun p => p.replicaProgress.find? replica).any (seq ≤ ·)

end ReplicationProgress

abbrev SessionReadTracker := Table Nat Nat

namespace SessionReadTracker

def noteWrite (tracker : SessionReadTracker) (shard seq : Nat) : SessionReadTracker :=
  if seq = 0 then tracker else tracker.put shard (((tracker.find? shard).map fun v => max v seq).getD seq)

def requiredSeq (tracker : SessionReadTracker) (shard : Nat) : Nat := (tracker.find? shard).getD 0

end SessionReadTracker

/-! ### What an acknowledgement changes -/

namespace ShardProgress
variable {p : ShardProgress} {replica : NodeName} {seq : Nat}

theorem replicaProgress_recordAck :
    (p.recordAck replica seq).replicaProgress = p.raise replica seq := by
  unfold recordAck
  simp only
  split <;> rfl

theorem commitIndex_le_recordAck : p.commitIndex ≤ (p.recordAck replica seq).commitIndex := by
  unfold recordAck
  simp only
  split
  · show p.commitIndex ≤ if _ then _ else _
    split
    · next hlt => exact hlt.le
    · exact le_rfl
  · exact le_rfl

theorem commitIndex_recordAck {index : Nat} (h : (p.recordAck replica seq).commitIndex = index) :
    index = p.commitIndex ∨
    (p.raise replica seq).rows.length / 2 + 1 ≤ (p.raise replica seq).rows.countP fun row => index ≤ row.2 := by
  unfold recordAck at h
  simp only at h
  split at h
  · next newCommitIndex hnew =>
    simp only at h
    split at h
    · have hcount := le_countP_nthLargest hnew
      rw [List.countP_map, h] at hcount
      exact .inr hcount
    · exact .inl h.symm
  · exact .inl h.symm

theorem mem_raise {row : NodeName × Nat} (h : row ∈ (p.raise replica seq).rows) :
    row ∈ p.replicaProgress.rows ∨ row = (replica, seq) := by
  rcases mem_of_mem_putRow h with rfl | hold
  · cases hfind : p.replicaProgress.find? replica with
    | none => exact .inr rfl
    | some v =>
      have hmem := Table.find?_eq_some_iff.mp hfind
      rcases le_total v seq with hle | hle
      · exact .inr (by rw [map_some, getD_some, max_eq_right hle])
      · exact .inl (by rw [map_some, getD_some, max_eq_left hle]; exact hmem)
  · exact .inl hold

theorem exists_mem_raise {row : NodeName × Nat} (h : row ∈ p.replicaProgress.rows)
    (replica : NodeName) (seq : Nat) :
    ∃ row' ∈ (p.raise replica seq).rows, row'.1 = row.1 ∧ row.2 ≤ row'.2 := by
  by_cases hkey : row.1 = replica
  · have hfind : p.replicaProgress.find? replica = some row.2 := Table.find?_eq_some_iff.mpr (hkey ▸ h)
    refine ⟨(replica, max row.2 seq), ?_, hkey.symm, le_max_left _ _⟩
    rw [raise, hfind]
    exact mem_putRow_self _ _ _
  · exact ⟨row, (mem_putRow_iff p.replicaProgress.sorted).mpr (.inr ⟨h, hkey⟩), rfl, le_rfl⟩

end ShardProgress
end Nexora.Cluster
