import Nexora.Lib.Numeral
import Nexora.Lib.Table

/-!
# The replication log of a shard

Every node keeps, for each shard, the last operations that the owner has numbered
(`nexora-zenoh/src/replication_log.rs`). The owner gives the next number; a replica ignores an
operation unless its number is above all it has seen. A durable log also writes to a store, from
which it is opened again.
-/

namespace Nexora.Cluster
open Lib

abbrev ShardId := Fin (2 ^ 64)

abbrev ReplicationSeq := Fin (2 ^ 64)

inductive CatchUp (Op : Type) where
  | upToDate
  | incremental (delta : List (ReplicationSeq × Op))
  | tooOld
deriving DecidableEq

structure ShardLog (Op : Type) where
  entries : List (ReplicationSeq × Op)
  highWater : ReplicationSeq
deriving DecidableEq

structure PersistCall (Op : Type) where
  shard : ShardId
  seq : ReplicationSeq
  op : Op
  highWater : ReplicationSeq

structure OpJson (Op : Type) where
  toVec : Op → Option (List UInt8)
  fromSlice : List UInt8 → Option Op

namespace OpJson
variable {Op : Type} (json : OpJson Op)

def value (op : Op) : List UInt8 := (json.toVec op).getD []

def Keeps (op : Op) : Prop := json.fromSlice (json.value op) = some op

end OpJson

structure DiskOutcome where
  put : Bool
  delete : List UInt8 → Bool

variable {Op : Type}

namespace ShardLog

def new : ShardLog Op := ⟨[], 0⟩

/-- `push_back`, then `pop_front` while there are too many entries. -/
def push (maxEntries : Nat) (log : ShardLog Op) (seq : ReplicationSeq) (op : Op) : ShardLog Op :=
  let entries := log.entries ++ [(seq, op)]
  ⟨entries.drop (entries.length - maxEntries), seq⟩

end ShardLog

/-! ### Keys of the store -/

def shardPrefix (shard : ShardId) : List UInt8 := numeral 10 shard.val ++ [0x3A]

def logKey (shard : ShardId) (seq : ReplicationSeq) : List UInt8 :=
  shardPrefix shard ++ fixedNumeral 16 16 seq.val

def parseSeq (bytes : List UInt8) : Option ReplicationSeq :=
  (parseNumeral 16 (2 ^ 64) bytes).map (Fin.ofNat (2 ^ 64))

def parseLogKey (key : List UInt8) : Option (ShardId × ReplicationSeq) := do
  let (shardStr, seqStr) ← splitOnce 0x3A key
  let shard ← parseNumeral 10 (2 ^ 64) shardStr
  let seq ← parseSeq seqStr
  some (Fin.ofNat (2 ^ 64) shard, seq)

/-! ### The log -/

structure ShardReplicationLog (Op : Type) where
  inner : Table ShardId (ShardLog Op)
  maxEntries : Nat
  maxEntries_pos : 0 < maxEntries
  maxEntries_lt : maxEntries < 2 ^ 64
  db : Option (Table (List UInt8) (List UInt8))

namespace ShardReplicationLog

def new (maxEntries : Fin (2 ^ 64)) : ShardReplicationLog Op where
  inner := .empty
  maxEntries := max maxEntries.val 1
  maxEntries_pos := by omega
  maxEntries_lt := by omega
  db := none

def replay (maxEntries : Nat) (entries : List (ReplicationSeq × Op)) : ShardLog Op :=
  let sorted := entries.insertionSort fun a b => a.1 ≤ b.1
  let tail := sorted.drop (sorted.length - maxEntries)
  ⟨tail, tail.foldl (fun highWater entry => max highWater entry.1) 0⟩

def parseRow (json : OpJson Op) (row : List UInt8 × List UInt8) :
    Option (ShardId × ReplicationSeq × Op) := do
  let (shard, seq) ← parseLogKey row.1
  let op ← json.fromSlice row.2
  some (shard, seq, op)

def openDurable (json : OpJson Op) (db : Table (List UInt8) (List UInt8))
    (maxEntries : Fin (2 ^ 64)) :
    ShardReplicationLog Op where
  inner := (Table.gather (db.rows.filterMap (parseRow json))).map (replay (max maxEntries.val 1))
  maxEntries := max maxEntries.val 1
  maxEntries_pos := by omega
  maxEntries_lt := by omega
  db := some db

def staleKeys (db : Table (List UInt8) (List UInt8)) (shard : ShardId) (cutoff : Nat) :
    List (List UInt8) :=
  let ahead := shardPrefix shard
  (((db.seek ahead).takeWhile fun row => ahead.isPrefixOf row.1).filter fun row =>
    ((splitOnce 0x3A row.1).bind fun parts => parseSeq parts.2).any fun seq => seq.val ≤ cutoff).map Prod.fst

/-- A failed write is only logged, and nothing is deleted then; a failed delete is only logged
too. -/
def persist (json : OpJson Op) (log : ShardReplicationLog Op) (call : PersistCall Op)
    (disk : DiskOutcome) :
    ShardReplicationLog Op :=
  match log.db with
  | none => log
  | some db =>
    if disk.put then
      let written := db.put (logKey call.shard call.seq) (json.value call.op)
      if log.maxEntries < call.highWater.val then
        let cutoff := call.highWater.val - log.maxEntries
        { log with db := some (written.eraseAll ((staleKeys written call.shard cutoff).filter disk.delete)) }
      else { log with db := some written }
    else log

def shardLog (log : ShardReplicationLog Op) (shard : ShardId) : ShardLog Op :=
  (log.inner.find? shard).getD .new

def highWater (log : ShardReplicationLog Op) (shard : ShardId) : ReplicationSeq :=
  (log.shardLog shard).highWater

/-- What happens under the lock, and the write to the store that is due when it has been released.
In a build without overflow checks the number after the last one is zero. -/
def recordOwner (log : ShardReplicationLog Op) (shard : ShardId) (op : Op) :
    ShardReplicationLog Op × PersistCall Op :=
  let old := log.shardLog shard
  let seq := old.highWater + 1
  ({ log with inner := log.inner.put shard (old.push log.maxEntries seq op) }, ⟨shard, seq, op, seq⟩)

/-- A number that is not above the highest one leaves the entries as they are. -/
def recordReplica (log : ShardReplicationLog Op) (shard : ShardId) (seq : ReplicationSeq)
    (op : Op) :
    ShardReplicationLog Op × Option (PersistCall Op) :=
  let old := log.shardLog shard
  if old.highWater < seq then
    ({ log with inner := log.inner.put shard (old.push log.maxEntries seq op) }, some ⟨shard, seq, op, seq⟩)
  else ({ log with inner := log.inner.put shard old }, none)

def since (log : ShardReplicationLog Op) (shard : ShardId) (fromSeq : ReplicationSeq) :
    CatchUp Op :=
  match log.inner.find? shard with
  | none => .tooOld
  | some shardLog =>
    if shardLog.highWater ≤ fromSeq then .upToDate
    else
      let earliest := (shardLog.entries.head?.map Prod.fst).getD ⟨2 ^ 64 - 1, maxWord_lt⟩
      if fromSeq + 1 < earliest then .tooOld
      else .incremental (shardLog.entries.filter fun entry => fromSeq < entry.1)

end ShardReplicationLog

/-! ### Calls -/

inductive LogCall (Op : Type) where
  | recordOwner (shard : ShardId) (op : Op)
  | recordReplica (shard : ShardId) (seq : ReplicationSeq) (op : Op)

def LogCall.shard : LogCall Op → ShardId
  | .recordOwner shard _ => shard
  | .recordReplica shard _ _ => shard

def ShardLog.accepts (log : ShardLog Op) : LogCall Op → Option (ReplicationSeq × Op)
  | .recordOwner _ op => some (log.highWater + 1, op)
  | .recordReplica _ seq op => if log.highWater < seq then some (seq, op) else none

namespace ShardReplicationLog

def record (log : ShardReplicationLog Op) :
    LogCall Op → ShardReplicationLog Op × Option (PersistCall Op)
  | .recordOwner shard op => ((log.recordOwner shard op).1, some (log.recordOwner shard op).2)
  | .recordReplica shard seq op => log.recordReplica shard seq op

variable (log : ShardReplicationLog Op) (call : LogCall Op)

@[simp]
theorem maxEntries_record : (log.record call).1.maxEntries = log.maxEntries := by
  cases call with
  | recordOwner shard op => rfl
  | recordReplica shard seq op =>
    simp only [record, recordReplica]
    split <;> rfl

@[simp]
theorem db_record : (log.record call).1.db = log.db := by
  cases call with
  | recordOwner shard op => rfl
  | recordReplica shard seq op =>
    simp only [record, recordReplica]
    split <;> rfl

@[simp]
theorem maxEntries_persist (json : OpJson Op) (due : PersistCall Op) (disk : DiskOutcome) :
    (log.persist json due disk).maxEntries = log.maxEntries := by
  unfold persist
  cases log.db with
  | none => rfl
  | some db =>
    dsimp only
    split_ifs <;> rfl

@[simp]
theorem shardLog_persist (json : OpJson Op) (due : PersistCall Op) (disk : DiskOutcome)
    (shard : ShardId) :
    (log.persist json due disk).shardLog shard = log.shardLog shard := by
  unfold persist
  cases log.db with
  | none => rfl
  | some db =>
    dsimp only
    split_ifs <;> rfl

theorem shardLog_put (shard' : ShardId) (new : ShardLog Op) (shard : ShardId) :
    ({ log with inner := log.inner.put shard' new } : ShardReplicationLog Op).shardLog shard =
      if shard' = shard then new else log.shardLog shard := by
  unfold shardLog
  rw [Table.find?_put]
  by_cases heq : shard' = shard
  · rw [if_pos heq, if_pos heq.symm, Option.getD_some]
  · rw [if_neg heq, if_neg (Ne.symm heq)]

theorem shardLog_record (shard : ShardId) :
    (log.record call).1.shardLog shard = if call.shard = shard then
        ((log.shardLog shard).accepts call).elim (log.shardLog shard) fun entry =>
          (log.shardLog shard).push log.maxEntries entry.1 entry.2
      else log.shardLog shard := by
  cases call with
  | recordOwner shard' op =>
    simp only [record, recordOwner, shardLog_put, LogCall.shard]
    by_cases heq : shard' = shard
    · subst heq
      simp [ShardLog.accepts]
    · simp [heq]
  | recordReplica shard' seq op =>
    by_cases heq : shard' = shard
    · subst heq
      by_cases hseq : (log.shardLog shard').highWater < seq
      · simp [record, recordReplica, shardLog_put, LogCall.shard, ShardLog.accepts, if_pos hseq]
      · simp [record, recordReplica, shardLog_put, LogCall.shard, ShardLog.accepts, if_neg hseq]
    · by_cases hseq : (log.shardLog shard').highWater < seq
      · simp [record, recordReplica, shardLog_put, LogCall.shard, hseq, heq]
      · simp [record, recordReplica, shardLog_put, LogCall.shard, hseq, heq]

theorem snd_record : (log.record call).2 =
      ((log.shardLog call.shard).accepts call).map fun entry => ⟨call.shard, entry.1, entry.2, entry.1⟩ := by
  cases call with
  | recordOwner shard op => rfl
  | recordReplica shard seq op =>
    by_cases hseq : (log.shardLog shard).highWater < seq
    · simp [record, recordReplica, ShardLog.accepts, LogCall.shard, hseq]
    · simp [record, recordReplica, ShardLog.accepts, LogCall.shard, hseq]

end ShardReplicationLog
end Nexora.Cluster
