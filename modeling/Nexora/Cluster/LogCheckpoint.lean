import Nexora.Cluster.ShardDigest
import Mathlib.Data.Finset.Max

/-!
# Checkpoints of the replication log

A checkpoint of the replication log is a file with its entries and a file with what it covers
(`nexora-zenoh/src/checkpoint.rs`). Checkpoints are numbered by a counter that starts at zero with
every manager; the largest number counts as the latest, and the smallest are deleted first.
-/

namespace Nexora.Checkpoint
open Lib Nexora.Cluster List Table ShardReplicationLog Json Nat

/-! ### Files -/

structure CheckpointMetadata where
  checkpointId : Nat
  timestamp : Nat
  shards : List (Fin (2 ^ 32))
  shardHighSeqs : Table (Fin (2 ^ 32)) ReplicationSeq
  snapshotPath : List UInt8

structure ShardSnapshot where
  shardId : Fin (2 ^ 32)
  operations : List (ReplicationSeq × GraphOperation)
  highSeq : ReplicationSeq

def ShardSnapshot.numbers (snapshot : ShardSnapshot) :
    Fin (2 ^ 32) × List ReplicationSeq × ReplicationSeq :=
  (snapshot.shardId, snapshot.operations.map Prod.fst, snapshot.highSeq)

/-- How the two kinds of files are written as JSON and read back. Numbers and paths come back as
they were; what is inside an operation need not. -/
structure CheckpointJson (B : Type) where
  snapshotsToVec : List ShardSnapshot → Except String B
  snapshotsFromSlice : B → Except String (List ShardSnapshot)
  metadataToVec : CheckpointMetadata → Except String B
  metadataFromSlice : B → Except String CheckpointMetadata
  numbers_eq : ∀ written data read, snapshotsToVec written = .ok data → snapshotsFromSlice data = .ok read →
    read.map ShardSnapshot.numbers = written.map ShardSnapshot.numbers
  metadata_eq : ∀ metadata data, metadataToVec metadata = .ok data → metadataFromSlice data = .ok metadata

def CheckpointJson.Keeps {B : Type} (json : CheckpointJson B) (snapshots : List ShardSnapshot) :
    Prop :=
  ∃ data, json.snapshotsToVec snapshots = .ok data ∧ json.snapshotsFromSlice data = .ok snapshots

def snapshotName (checkpointId : Nat) : List UInt8 :=
  ascii "checkpoint_" ++ (numeral 10 checkpointId ++ ascii ".json")

def metadataName (checkpointId : Nat) : List UInt8 :=
  ascii "checkpoint_" ++ (numeral 10 checkpointId ++ ascii ".meta.json")

def stripPrefix (ahead name : List UInt8) : Option (List UInt8) :=
  if ahead <+: name then some (name.drop ahead.length) else none

def stripSuffix (behind name : List UInt8) : Option (List UInt8) :=
  if behind <:+ name then some (name.take (name.length - behind.length)) else none

def parseMetadataName (name : List UInt8) : Option Nat := do
  let rest ← stripPrefix (ascii "checkpoint_") name
  let idStr ← stripSuffix (ascii ".meta.json") rest
  parseNumeral 10 (2 ^ 64) idStr

abbrev Directory (B : Type) := Table (List UInt8) B

def checkpointIds {B : Type} (dir : Directory B) : List Nat :=
  dir.rows.filterMap fun row => parseMetadataName row.1

/-! ### Creating a checkpoint -/

inductive WriteOutcome (B : Type) where
  | notCreated (error : String)
  | notWritten (left : B) (error : String)
  | notSynced (error : String)
  | written

structure CreateIo (B : Type) where
  timestamp : Nat
  snapshot : WriteOutcome B
  metadata : WriteOutcome B
  readDir : Except String Unit
  remove : List UInt8 → Bool

structure CheckpointManager where
  checkpointDir : List UInt8
  log : ShardReplicationLog GraphOperation
  latestCheckpointId : Nat
  retentionCount : Nat

def writeFile {B : Type} (what : String) (dir : Directory B) (name : List UInt8) (data : B) :
    WriteOutcome B → Directory B × Except String Unit
  | .notCreated e => (dir, .error ("Failed to create " ++ what ++ " file: " ++ e))
  | .notWritten left e => (dir.put name left, .error ("Failed to write " ++ what ++ ": " ++ e))
  | .notSynced e => (dir.put name data, .error ("Failed to sync " ++ what ++ ": " ++ e))
  | .written => (dir.put name data, .ok ())

/-- The checkpoints with the smallest numbers are deleted. Files that cannot be removed stay. -/
def cleanupOldCheckpoints {B : Type} (retentionCount : Nat) (remove : List UInt8 → Bool)
    (dir : Directory B) : Directory B :=
  let ids := (checkpointIds dir).insertionSort (· ≤ ·)
  dir.eraseAll (((ids.take (ids.length - retentionCount)).flatMap fun id => [snapshotName id, metadataName id]).filter remove)

def shardSnapshot (log : ShardReplicationLog GraphOperation) (shard : Fin (2 ^ 32)) :
    ShardSnapshot :=
  let operations := log.digestEntries (asShardId shard)
  ⟨shard, operations, (operations.getLast?.map Prod.fst).getD 0⟩

namespace CheckpointManager

def new (checkpointDir : List UInt8) (log : ShardReplicationLog GraphOperation)
    (retentionCount : Nat) : CheckpointManager :=
  ⟨checkpointDir, log, 0, retentionCount⟩

/-- The number of the next checkpoint. In a build without overflow checks the number after the last
one is zero. -/
def nextId (manager : CheckpointManager) : Nat := (manager.latestCheckpointId + 1) % 2 ^ 64

def metadataFor (manager : CheckpointManager) (shards : List (Fin (2 ^ 32))) (timestamp : Nat) :
    CheckpointMetadata where
  checkpointId := manager.nextId
  timestamp := timestamp
  shards := shards
  shardHighSeqs := empty.putAll (shards.map fun shard => (shard, (shardSnapshot manager.log shard).highSeq))
  snapshotPath := manager.checkpointDir ++ (ascii "/" ++ snapshotName manager.nextId)

variable {B : Type} (json : CheckpointJson B)

def writeCheckpoint (manager : CheckpointManager) (shards : List (Fin (2 ^ 32))) (io : CreateIo B)
    (dir : Directory B) :
    Directory B × Except String Nat :=
  match json.snapshotsToVec (shards.map (shardSnapshot manager.log)) with
  | .error e => (dir, .error ("Failed to serialize snapshot: " ++ e))
  | .ok snapshotData =>
    match writeFile "snapshot" dir (snapshotName manager.nextId) snapshotData io.snapshot with
    | (dir, .error e) => (dir, .error e)
    | (dir, .ok _) =>
      match json.metadataToVec (manager.metadataFor shards io.timestamp) with
      | .error e => (dir, .error ("Failed to serialize metadata: " ++ e))
      | .ok metadataData =>
        match writeFile "metadata" dir (metadataName manager.nextId) metadataData io.metadata with
        | (dir, .error e) => (dir, .error e)
        | (dir, .ok _) =>
          match io.readDir with
          | .error e => (dir, .error e)
          | .ok _ => (cleanupOldCheckpoints manager.retentionCount io.remove dir, .ok manager.nextId)

def createFullCheckpoint (manager : CheckpointManager) (shards : List (Fin (2 ^ 32)))
    (io : CreateIo B) (dir : Directory B) :
    (CheckpointManager × Directory B) × Except String Nat :=
  let result := manager.writeCheckpoint json shards io dir
  (({ manager with latestCheckpointId := manager.nextId }, result.1), result.2)

end CheckpointManager

/-! ### Reading a checkpoint -/

section
variable {B : Type} (json : CheckpointJson B)

def fileNotFound : String := "No such file or directory (os error 2)"

/-- A checkpoint is found if its number is above zero. -/
def loadLatestCheckpoint (dir : Directory B) : Except String (Option CheckpointMetadata) :=
  let latestId := (checkpointIds dir).foldl max 0
  if latestId = 0 then .ok none
  else
    match dir.find? (metadataName latestId) with
    | none => .error ("Failed to read metadata: " ++ fileNotFound)
    | some data =>
      match json.metadataFromSlice data with
      | .error e => .error ("Failed to deserialize metadata: " ++ e)
      | .ok metadata => .ok (some metadata)

def restoreFromCheckpoint (dir : Directory B) (checkpointId : Nat) :
    Except String (List ShardSnapshot) :=
  match dir.find? (snapshotName checkpointId) with
  | none => .error ("Failed to read snapshot: " ++ fileNotFound)
  | some data =>
    match json.snapshotsFromSlice data with
    | .error e => .error ("Failed to deserialize snapshot: " ++ e)
    | .ok snapshots => .ok snapshots

end

/-! ### Names -/

theorem stripPrefix_append (ahead rest : List UInt8) :
    stripPrefix ahead (ahead ++ rest) = some rest := by
  simp [stripPrefix]

theorem stripSuffix_append (rest behind : List UInt8) :
    stripSuffix behind (rest ++ behind) = some rest := by
  simp [stripSuffix]

theorem parseMetadataName_metadataName {checkpointId : Nat} (h : checkpointId < 2 ^ 64) :
    parseMetadataName (metadataName checkpointId) = some checkpointId := by
  unfold parseMetadataName metadataName
  rw [stripPrefix_append]
  show (stripSuffix _ _).bind _ = _
  rw [stripSuffix_append]
  exact parseNumeral_numeral (by decide) (by decide) h

theorem metadataName_inj {i j : Nat} (hi : i < 2 ^ 64) (hj : j < 2 ^ 64)
    (h : metadataName i = metadataName j) : i = j := by
  have hparse := congrArg parseMetadataName h
  rw [parseMetadataName_metadataName hi, parseMetadataName_metadataName hj] at hparse
  exact Option.some.inj hparse

theorem snapshotName_inj {i j : Nat} (hi : i < 2 ^ 64) (hj : j < 2 ^ 64)
    (h : snapshotName i = snapshotName j) : i = j := by
  have hdigits : numeral 10 i = numeral 10 j := append_cancel_right (append_cancel_left h)
  have hparse := congrArg (parseNumeral 10 (2 ^ 64)) hdigits
  rw [parseNumeral_numeral (by decide) (by decide) hi, parseNumeral_numeral (by decide) (by decide) hj] at hparse
  exact Option.some.inj hparse

theorem append_meta_json_ne (front : List UInt8) (i : Nat) :
    front ++ ascii ".meta.json" ≠ numeral 10 i ++ ascii ".json" := by
  intro h
  have hdigits : (front ++ ascii ".meta") ++ ascii ".json" = numeral 10 i ++ ascii ".json" := by
    rw [append_assoc]
    exact h
  have hlast := congrArg getLast? (append_cancel_right hdigits)
  rw [getLast?_append_of_ne_nil _ (by decide)] at hlast
  obtain ⟨d, hd, heq⟩ := mem_fixedNumeral (by decide) (mem_of_getLast? hlast.symm)
  exact absurd heq (by revert d; decide)

theorem snapshotName_ne_metadataName (i j : Nat) : snapshotName i ≠ metadataName j := fun h =>
  append_meta_json_ne (numeral 10 j) i (append_cancel_left h).symm

theorem parseMetadataName_snapshotName (i : Nat) : parseMetadataName (snapshotName i) = none := by
  have hsuffix : ¬ ascii ".meta.json" <:+ numeral 10 i ++ ascii ".json" := fun ⟨front, hfront⟩ =>
    append_meta_json_ne front i hfront
  unfold parseMetadataName snapshotName
  rw [stripPrefix_append]
  show (stripSuffix _ _).bind _ = _
  rw [stripSuffix, if_neg hsuffix]
  rfl

/-! ### Directories of checkpoints -/

section
variable {B : Type}

/-- The directory holds files of checkpoints only, and each names the number that it is filed
under. -/
structure Filed (json : CheckpointJson B) (dir : Directory B) : Prop where
  name : ∀ row ∈ dir.rows, ∀ id ∈ parseMetadataName row.1, id < 2 ^ 64 ∧ row.1 = metadataName id
  content : ∀ id < 2 ^ 64, ∀ data metadata, dir.find? (metadataName id) = some data →
    json.metadataFromSlice data = .ok metadata →
    metadata.checkpointId = id

variable {json : CheckpointJson B} {dir : Directory B}
section
variable (h : Filed json dir)
include h

theorem mem_checkpointIds {id : Nat} :
    id ∈ checkpointIds dir ↔ id < 2 ^ 64 ∧ ∃ data, dir.find? (metadataName id) = some data := by
  constructor
  · intro hid
    obtain ⟨⟨name, data⟩, hrow, hparse⟩ := mem_filterMap.mp hid
    obtain ⟨hlt, hname⟩ := h.name _ hrow id hparse
    exact ⟨hlt, data, find?_eq_some_iff.mpr (hname ▸ hrow)⟩
  · rintro ⟨hlt, data, hfind⟩
    exact mem_filterMap.mpr ⟨_, find?_eq_some_iff.mp hfind, parseMetadataName_metadataName hlt⟩

theorem nodup_checkpointIds : (checkpointIds dir).Nodup := by
  refine pairwise_filterMap.mpr (dir.sorted.imp_of_mem fun {a b} ha hb hlt id hid id' hid' heq => ?_)
  subst heq
  exact hlt.ne ((h.name a ha id hid).2.trans (h.name b hb id hid').2.symm)

omit h in
theorem filed_empty (json : CheckpointJson B) : Filed json (empty : Directory B) :=
  ⟨fun _ hrow => absurd hrow not_mem_nil, fun _ _ _ _ hfind => nomatch hfind⟩

theorem Filed.put_snapshot (id : Nat) (data : B) : Filed json (dir.put (snapshotName id) data) where
  name row hrow id' hid' := by
    obtain rfl | hold := mem_of_mem_putRow hrow
    · rw [parseMetadataName_snapshotName] at hid'
      cases hid'
    · exact h.name row hold id' hid'
  content id' hlt data' metadata hfind := by
    rw [find?_put, if_neg (snapshotName_ne_metadataName id id').symm] at hfind
    exact h.content id' hlt data' metadata hfind

theorem Filed.put_metadata {id : Nat} (hlt : id < 2 ^ 64) {data : B} {metadata : CheckpointMetadata}
    (hdata : json.metadataToVec metadata = .ok data) (hid : metadata.checkpointId = id) :
    Filed json (dir.put (metadataName id) data) where
  name row hrow id' hid' := by
    obtain rfl | hold := mem_of_mem_putRow hrow
    · rw [parseMetadataName_metadataName hlt] at hid'
      cases hid'
      exact ⟨hlt, rfl⟩
    · exact h.name row hold id' hid'
  content id' hlt' data' metadata' hfind hread := by
    rw [find?_put] at hfind
    split at hfind
    · next heq =>
      cases hfind
      rw [json.metadata_eq _ _ hdata] at hread
      cases hread
      exact hid.trans (metadataName_inj hlt hlt' heq.symm)
    · exact h.content id' hlt' data' metadata' hfind hread

theorem Filed.eraseAll (names : List (List UInt8)) : Filed json (dir.eraseAll names) where
  name row hrow := h.name row (mem_eraseAll_iff.mp hrow).1
  content id hlt data metadata hfind :=
    h.content id hlt data metadata
      (find?_eq_some_iff.mpr (mem_eraseAll_iff.mp (find?_eq_some_iff.mp hfind)).1)

end

/-! ### What a cleanup keeps -/

theorem not_mem_take_of_max {l : List Nat} (hsorted : l.Pairwise (· ≤ ·)) (hnodup : l.Nodup)
    {m : Nat} (hmax : ∀ i ∈ l, i ≤ m) {count : Nat} (hpos : 0 < count) :
    m ∉ l.take (l.length - count) := by
  intro hmem
  obtain ⟨i, hi, rfl⟩ := mem_take_iff_getElem.mp hmem
  have hlast : l.length - 1 < l.length := by omega
  have hle := pairwise_iff_getElem.mp hsorted i (l.length - 1) (by omega) hlast (by omega)
  have hsame := hnodup.getElem_inj_iff.mp (le_antisymm hle (hmax _ (getElem_mem hlast)))
  omega

variable {retentionCount : Nat} {remove : List UInt8 → Bool}

theorem find?_cleanup (h : Filed json dir) (hpos : 0 < retentionCount) {m : Nat} (hlt : m < 2 ^ 64)
    (hmax : ∀ i ∈ checkpointIds dir, i ≤ m) {name : List UInt8}
    (hname : name = snapshotName m ∨ name = metadataName m) :
    (cleanupOldCheckpoints retentionCount remove dir).find? name = dir.find? name := by
  have hkept : m ∉ ((checkpointIds dir).insertionSort (· ≤ ·)).take
      (((checkpointIds dir).insertionSort (· ≤ ·)).length - retentionCount) := by
    refine not_mem_take_of_max (pairwise_insertionSort _ _) ((perm_insertionSort _ _).nodup_iff.mpr (nodup_checkpointIds h))
      (fun i hi => hmax i ((perm_insertionSort _ _).mem_iff.mp hi)) hpos
  unfold cleanupOldCheckpoints
  rw [find?_eraseAll, if_neg]
  intro herased
  obtain ⟨id, hid, hfile⟩ := mem_flatMap.mp (mem_filter.mp herased).1
  have hlt' : id < 2 ^ 64 :=
    ((mem_checkpointIds h).mp ((perm_insertionSort _ _).mem_iff.mp (mem_of_mem_take hid))).1
  suffices hsame : id = m from hkept (hsame ▸ hid)
  rw [mem_cons, mem_singleton] at hfile
  obtain hname | hname := hname
  · obtain hfile | hfile := hfile
    · exact snapshotName_inj hlt' hlt (hfile.symm.trans hname)
    · exact absurd (hname.symm.trans hfile) (snapshotName_ne_metadataName m id)
  · obtain hfile | hfile := hfile
    · exact absurd (hfile.symm.trans hname) (snapshotName_ne_metadataName id m)
    · exact metadataName_inj hlt' hlt (hfile.symm.trans hname)

theorem mem_checkpointIds_of_cleanup {id : Nat}
    (hid : id ∈ checkpointIds (cleanupOldCheckpoints retentionCount remove dir)) :
    id ∈ checkpointIds dir := by
  obtain ⟨row, hrow, hparse⟩ := mem_filterMap.mp hid
  exact mem_filterMap.mpr ⟨row, (mem_eraseAll_iff.mp hrow).1, hparse⟩

theorem foldl_max_eq {ids : List Nat} {m : Nat} (hmem : m ∈ ids) (hmax : ∀ i ∈ ids, i ≤ m) :
    ids.foldl max 0 = m := by
  have hmax? : (0 :: ids).max? = some m :=
    max?_eq_some_iff.mpr ⟨mem_cons_of_mem 0 hmem, forall_mem_cons.mpr ⟨zero_le m, hmax⟩⟩
  exact Option.some.inj hmax?

end

/-! ### Runs -/

def retainedSnapshot (log : ShardReplicationLog GraphOperation) (shard : Fin (2 ^ 32)) :
    ShardSnapshot :=
  ⟨shard, (log.shardLog (asShardId shard)).entries, (log.shardLog (asShardId shard)).highWater⟩

structure Created where
  metadata : CheckpointMetadata
  retained : List ShardSnapshot

structure CheckpointState (B : Type) where
  manager : CheckpointManager
  dir : Directory B
  last : Option Created

/-- Calls of the log, checkpoints, and a manager that is started again over the same directory, with
the log as it is then. -/
inductive CheckpointStep (B : Type) where
  | log (call : LogCall GraphOperation)
  | create (shards : List (Fin (2 ^ 32))) (io : CreateIo B)
  | restart (log : ShardReplicationLog GraphOperation)

namespace CheckpointState
variable {B : Type} (json : CheckpointJson B)

def step (s : CheckpointState B) : CheckpointStep B → CheckpointState B
  | .log call => { s with manager := { s.manager with log := s.manager.log.step call } }
  | .create shards io =>
    match s.manager.createFullCheckpoint json shards io s.dir with
    | ((manager, dir), .error _) => { s with manager, dir }
    | ((manager, dir), .ok _) =>
      { manager
        dir
        last := some ⟨s.manager.metadataFor shards io.timestamp, shards.map (retainedSnapshot s.manager.log)⟩ }
  | .restart log => { s with manager := .new s.manager.checkpointDir log s.manager.retentionCount }

/-- The checkpoint created last is the one that is loaded, and restoring it gives what the log
retained. -/
def Recent (s : CheckpointState B) : Prop :=
  ∀ created ∈ s.last, loadLatestCheckpoint json s.dir = .ok (some created.metadata) ∧
    restoreFromCheckpoint json s.dir created.metadata.checkpointId = .ok created.retained

/-- Checkpoints are created with success, and the numbers of the log rise. -/
def Succeeds (s : CheckpointState B) : CheckpointStep B → Prop
  | .log call => ∀ shard, s.manager.log.LeavesRoom shard call
  | .create shards io => ∃ id, (s.manager.createFullCheckpoint json shards io s.dir).2 = .ok id
  | .restart log => ∀ shard, (log.shardLog shard).Rising

/-- No checkpoint in the directory has a larger number than the new one, nothing has been evicted
from the logs of its shards, and the operations are read back from their JSON as they were. -/
def Covers (s : CheckpointState B) : CheckpointStep B → Prop
  | .create shards _ =>
    (∀ id ∈ checkpointIds s.dir, id ≤ s.manager.nextId) ∧
      (∀ shard ∈ shards, (s.manager.log.shardLog (asShardId shard)).entries ≠ [] →
        (s.manager.log.shardLog (asShardId shard)).BeginsAtOne) ∧
      json.Keeps (shards.map (retainedSnapshot s.manager.log))
  | _ => True

structure Inv (s : CheckpointState B) : Prop where
  filed : Filed json s.dir
  rising : ∀ shard, (s.manager.log.shardLog shard).Rising
  retention : 0 < s.manager.retentionCount
  latest : s.manager.latestCheckpointId ≠ 0 → s.manager.latestCheckpointId ∈ checkpointIds s.dir
  recent : s.Recent json

variable {json} {s : CheckpointState B} {shards : List (Fin (2 ^ 32))} {io : CreateIo B}
variable {dir dir' : Directory B}

theorem writeFile_ok {what : String} {name : List UInt8} {data : B} {outcome : WriteOutcome B}
    (h : writeFile what dir name data outcome = (dir', .ok ())) : dir' = dir.put name data := by
  cases outcome with
  | written =>
    cases h
    rfl
  | _ => cases h

theorem writeCheckpoint_ok {manager : CheckpointManager} {id : Nat}
    (h : manager.writeCheckpoint json shards io dir = (dir', .ok id)) :
    ∃ snapshotData metadataData,
      json.snapshotsToVec (shards.map (shardSnapshot manager.log)) = .ok snapshotData ∧
        json.metadataToVec (manager.metadataFor shards io.timestamp) = .ok metadataData ∧
        dir' = cleanupOldCheckpoints manager.retentionCount io.remove
          ((dir.put (snapshotName manager.nextId) snapshotData).put (metadataName manager.nextId) metadataData) := by
  unfold CheckpointManager.writeCheckpoint at h
  split at h
  · cases h
  next snapshotData hsnapshot =>
  split at h
  · cases h
  next dir₁ _ hfile =>
  split at h
  · cases h
  next metadataData hmetadata =>
  split at h
  · cases h
  next dir₂ _ hfile' =>
  split at h
  · cases h
  cases h
  exact ⟨snapshotData, metadataData, hsnapshot, hmetadata, by rw [writeFile_ok hfile', writeFile_ok hfile]⟩

theorem exists_of_create (h : s.Succeeds json (.create shards io)) : ∃ snapshotData metadataData,
      json.snapshotsToVec (shards.map (shardSnapshot s.manager.log)) = .ok snapshotData ∧
        json.metadataToVec (s.manager.metadataFor shards io.timestamp) = .ok metadataData ∧
        s.step json (.create shards io) =
          ⟨{ s.manager with latestCheckpointId := s.manager.nextId },
            cleanupOldCheckpoints s.manager.retentionCount io.remove
              ((s.dir.put (snapshotName s.manager.nextId) snapshotData).put (metadataName s.manager.nextId) metadataData),
            some ⟨s.manager.metadataFor shards io.timestamp, shards.map (retainedSnapshot s.manager.log)⟩⟩ := by
  obtain ⟨id, hid⟩ := h
  have hwrite : s.manager.writeCheckpoint json shards io s.dir =
      ((s.manager.writeCheckpoint json shards io s.dir).1, .ok id) :=
    Prod.ext rfl hid
  obtain ⟨snapshotData, metadataData, hsnapshot, hmetadata, hdir⟩ := writeCheckpoint_ok hwrite
  refine ⟨snapshotData, metadataData, hsnapshot, hmetadata, ?_⟩
  have hcreate : s.manager.createFullCheckpoint json shards io s.dir =
      (({ s.manager with latestCheckpointId := s.manager.nextId }, (s.manager.writeCheckpoint json shards io s.dir).1), .ok id) :=
    Prod.ext rfl hid
  rw [step, hcreate, ← hdir]

/-! ### What the directory holds afterwards -/

theorem nextId_lt (manager : CheckpointManager) : manager.nextId < 2 ^ 64 := mod_lt _ (by decide)

def withCheckpoint (dir : Directory B) (id : Nat) (snapshotData metadataData : B) : Directory B :=
  (dir.put (snapshotName id) snapshotData).put (metadataName id) metadataData

section
variable {dir : Directory B} {id : Nat} {snapshotData metadataData : B}
    {metadata : CheckpointMetadata}
section
variable (h : Filed json dir) (hlt : id < 2 ^ 64)
    (hdata : json.metadataToVec metadata = .ok metadataData) (hid : metadata.checkpointId = id)
include h hlt hdata hid

theorem filed_withCheckpoint (snapshotData : B) :
    Filed json (withCheckpoint dir id snapshotData metadataData) :=
  (h.put_snapshot id snapshotData).put_metadata hlt hdata hid

theorem mem_checkpointIds_withCheckpoint {i : Nat} :
    i ∈ checkpointIds (withCheckpoint dir id snapshotData metadataData) ↔
    i = id ∨ i ∈ checkpointIds dir := by
  rw [mem_checkpointIds (filed_withCheckpoint h hlt hdata hid snapshotData), mem_checkpointIds h,
    withCheckpoint, find?_put,
    find?_put, if_neg (snapshotName_ne_metadataName id i).symm]
  by_cases heq : metadataName i = metadataName id
  · rw [if_pos heq]
    constructor
    · rintro ⟨hi, -⟩
      exact .inl (metadataName_inj hi hlt heq)
    · rintro (rfl | ⟨hi, -⟩)
      · exact ⟨hlt, metadataData, rfl⟩
      · exact ⟨hi, metadataData, rfl⟩
  · rw [if_neg heq]
    exact (or_iff_right fun hi => heq (congrArg metadataName hi)).symm

end

theorem find?_snapshotName_withCheckpoint :
    (withCheckpoint dir id snapshotData metadataData).find? (snapshotName id) = some snapshotData := by
  rw [withCheckpoint, find?_put, if_neg (snapshotName_ne_metadataName id id), find?_put, if_pos rfl]

theorem find?_metadataName_withCheckpoint :
    (withCheckpoint dir id snapshotData metadataData).find? (metadataName id) = some metadataData := by
  rw [withCheckpoint, find?_put, if_pos rfl]

end

theorem loadLatestCheckpoint_cleanup {dir : Directory B} (h : Filed json dir) {retentionCount : Nat}
    (hpos : 0 < retentionCount) (remove : List UInt8 → Bool) {m : Nat}
    (hmem : m ∈ checkpointIds dir) (hmax : ∀ i ∈ checkpointIds dir, i ≤ m) (hne : m ≠ 0) {data : B}
    (hfind : dir.find? (metadataName m) = some data) :
    m ∈ checkpointIds (cleanupOldCheckpoints retentionCount remove dir) ∧
      loadLatestCheckpoint json (cleanupOldCheckpoints retentionCount remove dir) =
        match json.metadataFromSlice data with
        | .error e => .error ("Failed to deserialize metadata: " ++ e)
        | .ok metadata => .ok (some metadata) := by
  have hlt := ((mem_checkpointIds h).mp hmem).1
  have hkept : (cleanupOldCheckpoints retentionCount remove dir).find? (metadataName m) = some data :=
    (find?_cleanup h hpos hlt hmax (.inr rfl)).trans hfind
  have hmem' : m ∈ checkpointIds (cleanupOldCheckpoints retentionCount remove dir) :=
    (mem_checkpointIds (h.eraseAll _)).mpr ⟨hlt, data, hkept⟩
  refine ⟨hmem', ?_⟩
  unfold loadLatestCheckpoint
  rw [foldl_max_eq hmem' fun i hi => hmax i (mem_checkpointIds_of_cleanup hi)]
  rw [if_neg hne, hkept]

variable {log : ShardReplicationLog GraphOperation}

theorem shardSnapshot_eq {shard : Fin (2 ^ 32)} (h : (log.shardLog (asShardId shard)).Rising)
    (hone : (log.shardLog (asShardId shard)).entries ≠ [] → (log.shardLog (asShardId shard)).BeginsAtOne) :
    shardSnapshot log shard = retainedSnapshot log shard := by
  have hhigh : ((log.shardLog (asShardId shard)).entries.getLast?.map Prod.fst).getD 0 =
      (log.shardLog (asShardId shard)).highWater := by
    cases hlast : (log.shardLog (asShardId shard)).entries.getLast? with
    | none => exact (h.empty (getLast?_eq_none_iff.mp hlast)).symm
    | some entry => exact h.last entry hlast
  unfold shardSnapshot retainedSnapshot
  dsimp only
  rw [digestEntries_of_whole h hone, hhigh]

theorem map_shardSnapshot_eq (h : ∀ shard, (log.shardLog shard).Rising)
    (hwhole : ∀ shard ∈ shards, (log.shardLog (asShardId shard)).entries ≠ [] → (log.shardLog (asShardId shard)).BeginsAtOne) :
    shards.map (shardSnapshot log) = shards.map (retainedSnapshot log) :=
  map_congr_left fun shard hshard => shardSnapshot_eq (h (asShardId shard)) (hwhole shard hshard)

theorem whole_of_numbers {shard : Fin (2 ^ 32)} (h : (log.shardLog (asShardId shard)).Rising)
    (heq : (retainedSnapshot log shard).numbers = (shardSnapshot log shard).numbers)
    (hne : (log.shardLog (asShardId shard)).entries ≠ []) :
    (log.shardLog (asShardId shard)).BeginsAtOne := by
  by_contra hnot
  have hentries : (log.shardLog (asShardId shard)).entries.map Prod.fst =
      (log.digestEntries (asShardId shard)).map Prod.fst :=
    congrArg (fun numbers => numbers.2.1) heq
  rw [digestEntries_eq h, if_neg hnot] at hentries
  exact hne (map_eq_nil_iff.mp hentries)

theorem restoreFromCheckpoint_cleanup {dir : Directory B} (h : Filed json dir)
    {retentionCount : Nat} (hpos : 0 < retentionCount) (remove : List UInt8 → Bool) {m : Nat}
    (hlt : m < 2 ^ 64) (hmax : ∀ i ∈ checkpointIds dir, i ≤ m) {data : B}
    (hfind : dir.find? (snapshotName m) = some data) :
    restoreFromCheckpoint json (cleanupOldCheckpoints retentionCount remove dir) m =
      match json.snapshotsFromSlice data with
      | .error e => .error ("Failed to deserialize snapshot: " ++ e)
      | .ok snapshots => .ok snapshots := by
  unfold restoreFromCheckpoint
  rw [find?_cleanup h hpos hlt hmax (.inl rfl), hfind]

theorem Inv.exists_pos (h : s.Inv json) :
    s.manager.nextId ≠ 0 ∨ ∃ i ∈ checkpointIds s.dir, i ≠ 0 := by
  by_cases hzero : s.manager.latestCheckpointId = 0
  · left
    rw [CheckpointManager.nextId, hzero]
    decide
  · exact .inr ⟨_, h.latest hzero, hzero⟩

theorem Inv.create (h : s.Inv json) (hok : s.Succeeds json (.create shards io))
    (hcovers : s.Covers json (.create shards io)) :
    (s.step json (.create shards io)).Inv json := by
  obtain ⟨snapshotData, metadataData, hsnapshot, hmetadata, hstep⟩ := exists_of_create hok
  obtain ⟨hlargest, hwhole, data, hdata, hread⟩ := hcovers
  have hlt := nextId_lt s.manager
  have hfiled := filed_withCheckpoint h.filed hlt hmetadata rfl snapshotData
  have hids := fun {i} => @mem_checkpointIds_withCheckpoint _ json s.dir s.manager.nextId snapshotData _ _ h.filed hlt hmetadata rfl i
  have hmax : ∀ i ∈ checkpointIds (withCheckpoint s.dir s.manager.nextId snapshotData metadataData),
      i ≤ s.manager.nextId := by
    intro i hi
    obtain rfl | hold := hids.mp hi
    · exact le_rfl
    · exact hlargest i hold
  have hne : s.manager.nextId ≠ 0 := by
    obtain hne | ⟨i, hi, hne⟩ := h.exists_pos
    · exact hne
    · have hle := hlargest i hi
      omega
  obtain ⟨hmem, hload⟩ := loadLatestCheckpoint_cleanup hfiled h.retention io.remove (hids.mpr (.inl rfl)) hmax hne
    find?_metadataName_withCheckpoint
  rw [map_shardSnapshot_eq h.rising hwhole, hdata] at hsnapshot
  cases hsnapshot
  rw [hstep]
  refine ⟨hfiled.eraseAll _, h.rising, h.retention, fun _ => hmem, ?_⟩
  intro created hcreated
  cases hcreated
  constructor
  · refine hload.trans ?_
    rw [json.metadata_eq _ _ hmetadata]
  · refine (restoreFromCheckpoint_cleanup hfiled h.retention io.remove hlt hmax find?_snapshotName_withCheckpoint).trans ?_
    rw [hread]

theorem Inv.covers_of_recent (h : s.Inv json) (hok : s.Succeeds json (.create shards io))
    (hrecent : (s.step json (.create shards io)).Recent json) :
    s.Covers json (.create shards io) := by
  obtain ⟨snapshotData, metadataData, hsnapshot, hmetadata, hstep⟩ := exists_of_create hok
  have hlt := nextId_lt s.manager
  have hfiled := filed_withCheckpoint h.filed hlt hmetadata rfl snapshotData
  have hids := fun {i} => @mem_checkpointIds_withCheckpoint _ json s.dir s.manager.nextId snapshotData _ _ h.filed hlt hmetadata rfl i
  rw [hstep] at hrecent
  obtain ⟨hload, hrestore⟩ := hrecent _ rfl
  -- The largest number of the directory is loaded, so it is that of the new checkpoint.
  obtain ⟨m, hm, hmax⟩ :
    ∃ m ∈ checkpointIds (withCheckpoint s.dir s.manager.nextId snapshotData metadataData),
      ∀ i ∈ checkpointIds (withCheckpoint s.dir s.manager.nextId snapshotData metadataData), i ≤ m := by
    obtain ⟨m, hm, hmax⟩ := (checkpointIds (withCheckpoint s.dir s.manager.nextId snapshotData metadataData)).toFinset.exists_max_image
      id ⟨s.manager.nextId, mem_toFinset.mpr (hids.mpr (.inl rfl))⟩
    exact ⟨m, mem_toFinset.mp hm, fun i hi => hmax i (mem_toFinset.mpr hi)⟩
  have hne : m ≠ 0 := by
    obtain hne | ⟨i, hi, hne⟩ := h.exists_pos
    · have hle := hmax _ (hids.mpr (.inl rfl))
      omega
    · have hle := hmax _ (hids.mpr (.inr hi))
      omega
  obtain ⟨hmlt, data, hfind⟩ := (mem_checkpointIds hfiled).mp hm
  have hread := (loadLatestCheckpoint_cleanup hfiled h.retention io.remove hm hmax hne hfind).2.symm.trans hload
  have hsame : s.manager.nextId = m := by
    cases hdecoded : json.metadataFromSlice data with
    | error e =>
      rw [hdecoded] at hread
      cases hread
    | ok metadata =>
      rw [hdecoded] at hread
      cases hread
      exact hfiled.content m hmlt data _ hfind hdecoded
  subst hsame
  have hrestored := (restoreFromCheckpoint_cleanup hfiled h.retention io.remove hlt hmax find?_snapshotName_withCheckpoint).symm.trans
    hrestore
  cases hdecoded : json.snapshotsFromSlice snapshotData with
  | error e =>
    rw [hdecoded] at hrestored
    cases hrestored
  | ok snapshots =>
    rw [hdecoded] at hrestored
    cases hrestored
    have hnumbers := json.numbers_eq _ _ _ hsnapshot hdecoded
    rw [map_map, map_map, map_inj_left] at hnumbers
    have hwhole : ∀ shard ∈ shards, (s.manager.log.shardLog (asShardId shard)).entries ≠ [] →
        (s.manager.log.shardLog (asShardId shard)).BeginsAtOne := fun shard hshard =>
      whole_of_numbers (h.rising (asShardId shard)) (hnumbers shard hshard)
    refine ⟨fun i hi => hmax i (hids.mpr (.inr hi)), hwhole, snapshotData, ?_, hdecoded⟩
    rw [← map_shardSnapshot_eq h.rising hwhole]
    exact hsnapshot

theorem Inv.step (h : s.Inv json) {label : CheckpointStep B} (hok : s.Succeeds json label)
    (hcovers : s.Covers json label) :
    (s.step json label).Inv json := by
  cases label with
  | log call =>
    exact ⟨h.filed, fun shard => rising_step (h.rising shard) (hok shard), h.retention, h.latest, h.recent⟩
  | create shards io => exact h.create hok hcovers
  | restart log => exact ⟨h.filed, hok, h.retention, fun hne => absurd rfl hne, h.recent⟩

/-- **The latest checkpoint is the last one**, throughout a run whose checkpoints are created with
success, if and only if each of them gets the largest number of the directory, covers logs from
which nothing has been evicted, and can be read back. -/
theorem recent_iff_along (hfiled : s.dir = .empty) (hlast : s.last = none)
    (hlatest : s.manager.latestCheckpointId = 0)
    (hrising : ∀ shard, (s.manager.log.shardLog shard).Rising)
    (hretention : 0 < s.manager.retentionCount) {labels : List (CheckpointStep B)}
    (hok : Along (step json) (Succeeds json) s labels) :
    (∀ k, (run (step json) s (labels.take k)).Recent json) ↔
      Along (step json) (Covers json) s labels := by
  have hinv : s.Inv json :=
    ⟨hfiled ▸ filed_empty json, hrising, hretention, fun hne => absurd hlatest hne, fun created hcreated => by
      rw [hlast] at hcreated
      cases hcreated⟩
  refine forall_take_iff_along_of_along (fun _ _ hs hconsidered hcovers => hs.step hconsidered hcovers) (fun _ hs => hs.recent)
    (fun s label hs hconsidered hnot hrecent => ?_) hinv hok
  cases label with
  | log call => exact hnot trivial
  | create shards io => exact hnot (hs.covers_of_recent hconsidered hrecent)
  | restart log => exact hnot trivial

/-! ### A manager that is started again -/

end CheckpointState

def plainJson : CheckpointJson (List ShardSnapshot ⊕ CheckpointMetadata) where
  snapshotsToVec snapshots := .ok (.inl snapshots)
  snapshotsFromSlice
    | .inl snapshots => .ok snapshots
    | .inr _ => .error "invalid type: map, expected a sequence"
  metadataToVec metadata := .ok (.inr metadata)
  metadataFromSlice
    | .inl _ => .error "invalid type: sequence, expected a map"
    | .inr metadata => .ok metadata
  numbers_eq written data read hwritten hread := by
    cases hwritten
    cases hread
    rfl
  metadata_eq metadata data hwritten := by
    cases hwritten
    rfl

def checkpointAt (timestamp : Nat) : CheckpointStep (List ShardSnapshot ⊕ CheckpointMetadata) :=
  .create [0] ⟨timestamp, .written, .written, .ok (), fun _ => true⟩

def writeOf (value : Bool) : CheckpointStep (List ShardSnapshot ⊕ CheckpointMetadata) :=
  .log (.recordOwner 0 (.setProperty ⟨[1]⟩ "color" (.bool value)))

def newManager : CheckpointState (List ShardSnapshot ⊕ CheckpointMetadata) :=
  ⟨.new [] (.new 1) 1, .empty, none⟩

namespace CheckpointState

/-- A write and two checkpoints: the second one is loaded, and it has the write. -/
theorem recent_two_checkpoints :
    (run (step plainJson) newManager ([writeOf true, checkpointAt 5, checkpointAt 6].take 3)).Recent plainJson := by
  have hok : Along (step plainJson) (Succeeds plainJson) newManager [writeOf true, checkpointAt 5, checkpointAt 6] :=
    ⟨fun _ _ => (by decide : 0 + 1 < 2 ^ 64), ⟨1, rfl⟩, ⟨2, rfl⟩, trivial⟩
  have hrising : ∀ shard, (newManager.manager.log.shardLog shard).Rising :=
    fun _ => ShardLog.rising_new
  have hwhole : ∀ shard ∈ ([0] : List (Fin (2 ^ 32))),
      ((step plainJson newManager (writeOf true)).manager.log.shardLog (asShardId shard)).BeginsAtOne := by
    intro shard hshard
    rw [mem_singleton.mp hshard]
    rfl
  refine (recent_iff_along rfl rfl rfl hrising (by decide) hok).mpr ⟨trivial, ?_, ?_, trivial⟩ 3
  · exact ⟨by decide, fun shard hshard _ => hwhole shard hshard, _, rfl, rfl⟩
  · exact ⟨by decide, fun shard hshard _ => hwhole shard hshard, _, rfl, rfl⟩

/-- **A manager that is started again** counts from one: the checkpoint it creates is deleted at
once, and the one before is loaded. **Beyond its capacity** the log has nothing to write. -/
theorem not_recent_restarted_not_recent_evicted :
    ¬ (run (step plainJson) newManager [checkpointAt 5, checkpointAt 6, .restart (.new 1), checkpointAt 7]).Recent plainJson ∧
      ¬ (run (step plainJson) newManager [writeOf true, writeOf false, checkpointAt 5]).Recent plainJson := by
  constructor
  · intro hrecent
    have hload := congrArg (fun result => result.map fun found => found.map CheckpointMetadata.timestamp) (hrecent _ rfl).1
    cases hload
  · intro hrecent
    have hrestore := congrArg (fun result => result.map fun snapshots => snapshots.map ShardSnapshot.highSeq) (hrecent _ rfl).2
    cases hrestore

end CheckpointState
end Nexora.Checkpoint
