import Nexora.Cluster.CatchUp
import Nexora.Cluster.Fencing
import Nexora.Cluster.TransactionCoordinator

/-!
# Replicated writes on a follower

A follower turns away a write that the fence does not admit, records the rest in its replication
log, and only then executes it on its graph (`nexora-zenoh/src/graph_service_adapter.rs`). What
cannot be executed stays recorded.
-/

namespace Nexora.Cluster
open Lib ShardReplicationLog List

inductive GraphResult where
  | property (value : Option Json)
  | status (ok : Bool) (message : String)
  | cypherRows (columns : List String) (rows : List (List Json))

structure GraphCalls (G : Type) where
  setProperty : G → NexoraId → String → Json → G
  addEdge : G → NexoraId → HalfEdge → G

structure FencedWrite where
  shardId : ShardId
  epoch : OwnerEpoch
  seq : ReplicationSeq
  inner : GraphOperation

structure Delivery where
  write : FencedWrite
  fault : Option String

def parseDirection (direction : String) : EdgeDirection :=
  if direction = "in" ∨ direction = "In" ∨ direction = "IN" then .incoming else .out

def GraphOperation.isMutation : GraphOperation → Bool
  | .setProperty _ _ _ | .addEdge _ _ _ _ => true
  | _ => false

def Delivery.Executable (delivery : Delivery) : Prop :=
  delivery.write.inner.isMutation = true ∧ delivery.fault = none

/-- A node's graph with what guards it. A node outside of a cluster has neither fence nor log. -/
structure GraphServiceAdapter (G : Type) where
  graph : G
  fence : Option ShardFence
  replicationLog : Option (ShardReplicationLog GraphOperation)

namespace GraphServiceAdapter
variable {G : Type} (calls : GraphCalls G) (debug : GraphOperation → String)

/-- Execute a write that has been admitted. Anything but a simple mutation is an error of the
protocol. -/
def applyInner (graph : G) (inner : GraphOperation) (fault : Option String) :
    G × Except RouterError GraphResult :=
  match inner, fault with
  | .setProperty qid key value, none => (calls.setProperty graph qid key value, .ok (.status true "property set"))
  | .addEdge source edgeType target direction, none =>
    (calls.addEdge graph source ⟨edgeType, parseDirection direction, target⟩, .ok (.status true "edge added"))
  | .setProperty _ _ _, some error | .addEdge _ _ _ _, some error => (graph, .error (.remote error))
  | other, _ => (graph, .error (.remote ("FencedWrite inner must be a mutation (SetProperty/AddEdge), got " ++ debug other)))

def admitted (a : GraphServiceAdapter G) (write : FencedWrite) : Option ShardFence × Bool :=
  match a.fence with
  | none => (none, true)
  | some fence =>
    let (fence, admits) := fence.admitWrite write.shardId.val write.epoch
    (some fence, admits)

/-- The number zero is that of an owner without a log, and is not recorded. -/
def recorded (a : GraphServiceAdapter G) (write : FencedWrite) :
    Option (ShardReplicationLog GraphOperation) :=
  if 0 < write.seq then a.replicationLog.map fun log => (log.recordReplica write.shardId write.seq write.inner).1
  else a.replicationLog

def staleText (write : FencedWrite) (current : Option OwnerEpoch) : String :=
  "fenced write rejected: shard " ++ toString write.shardId.val ++ " epoch " ++ toString write.epoch.val ++
    " is stale (current " ++ toString ((current.map Fin.val).getD 0) ++ ")"

/-- A fenced write is recorded before it is executed. -/
def handle (a : GraphServiceAdapter G) (delivery : Delivery) :
    GraphServiceAdapter G × Except RouterError GraphResult :=
  let write := delivery.write
  let (fence, admits) := a.admitted write
  if admits then
    let (graph, result) := applyInner calls debug a.graph write.inner delivery.fault
    ({ graph := graph, fence := fence, replicationLog := a.recorded write }, result)
  else
    ({ a with fence := fence },
      .error (.remote (staleText write (fence.bind fun fence => fence.current write.shardId.val))))

end GraphServiceAdapter

/-- A follower, with the writes that have been executed on its graph. -/
structure Follower (G : Type) where
  adapter : GraphServiceAdapter G
  applied : List (ShardId × ReplicationSeq × GraphOperation)

namespace Follower
variable {G : Type} (calls : GraphCalls G) (debug : GraphOperation → String)

def step (f : Follower G) (delivery : Delivery) : Follower G :=
  let (adapter, result) := f.adapter.handle calls debug delivery
  let write := delivery.write
  match result with
  | .ok _ => ⟨adapter, (write.shardId, write.seq, write.inner) :: f.applied⟩
  | .error _ => ⟨adapter, f.applied⟩

/-- **What the log holds has been executed.** -/
def LogApplied (f : Follower G) : Prop :=
  ∀ log ∈ f.adapter.replicationLog, ∀ shard, ∀ entry ∈ (log.shardLog shard).entries,
    (shard, entry.1, entry.2) ∈ f.applied

def LogAppliedThroughout (f : Follower G) (deliveries : List Delivery) : Prop :=
  ∀ k, (run (step calls debug) f (deliveries.take k)).LogApplied

/-- The write is recorded: the fence admits it, and its number is above all that the log has seen of
the shard. -/
def Records (f : Follower G) (write : FencedWrite) : Prop :=
  (f.adapter.admitted write).2 = true ∧ 0 < write.seq ∧ ∃ log ∈ f.adapter.replicationLog,
    log.highWater write.shardId < write.seq

/-- What is recorded can be executed: it is a simple mutation, and the graph service does not
fail. -/
def RecordsExecutable (f : Follower G) (delivery : Delivery) : Prop :=
  f.Records delivery.write → delivery.Executable

/-- What the log holds has been executed, and what has been executed is not numbered above the
highest number of the log. -/
structure InStep (f : Follower G) : Prop where
  logApplied : f.LogApplied
  le_highWater : ∀ log ∈ f.adapter.replicationLog, ∀ shard seq op, (shard, seq, op) ∈ f.applied →
    seq ≤ log.highWater shard

end Follower

/-! ### One delivery -/

namespace ShardLog
variable {Op : Type} {maxEntries : Nat} {log : ShardLog Op} {seq : ReplicationSeq} {op : Op}

theorem mem_of_mem_push {entry : ReplicationSeq × Op}
    (h : entry ∈ (log.push maxEntries seq op).entries) :
    entry ∈ log.entries ∨ entry = (seq, op) := by
  have happend := mem_of_mem_drop h
  rw [mem_append, mem_singleton] at happend
  exact happend

theorem mem_push_self (hpos : 0 < maxEntries) : (seq, op) ∈ (log.push maxEntries seq op).entries :=
  mem_of_getLast? (getLast?_push hpos seq op)

end ShardLog

namespace GraphServiceAdapter
variable {G : Type} {calls : GraphCalls G} {debug : GraphOperation → String}
variable {inner : GraphOperation}

theorem applyInner_of_isMutation (graph : G) (h : inner.isMutation = true) :
    ∃ result, (applyInner calls debug graph inner none).2 = .ok result := by
  unfold GraphOperation.isMutation at h
  split at h
  · exact ⟨_, rfl⟩
  · exact ⟨_, rfl⟩
  · cases h

theorem applyInner_of_not (graph : G) {fault : Option String}
    (h : ¬ (inner.isMutation = true ∧ fault = none)) :
    (applyInner calls debug graph inner fault).1 = graph ∧ ∃ error,
      (applyInner calls debug graph inner fault).2 = .error error := by
  unfold applyInner
  split
  · exact absurd ⟨rfl, rfl⟩ h
  · exact absurd ⟨rfl, rfl⟩ h
  · exact ⟨rfl, _, rfl⟩
  · exact ⟨rfl, _, rfl⟩
  · exact ⟨rfl, _, rfl⟩

variable {a : GraphServiceAdapter G} {delivery : Delivery}

theorem handle_of_executable (hadmits : (a.admitted delivery.write).2 = true)
    (h : delivery.Executable) :
    ∃ result, (a.handle calls debug delivery).2 = .ok result := by
  obtain ⟨hmutation, hfault⟩ := h
  unfold handle
  dsimp only
  rw [if_pos hadmits, hfault]
  exact applyInner_of_isMutation a.graph hmutation

theorem handle_of_not (h : ¬ ((a.admitted delivery.write).2 = true ∧ delivery.Executable)) :
    (a.handle calls debug delivery).1.graph = a.graph ∧ ∃ error, (a.handle calls debug delivery).2 = .error error := by
  unfold handle
  dsimp only
  split
  · next hadmits => exact applyInner_of_not a.graph fun hexecutable => h ⟨hadmits, hexecutable⟩
  · exact ⟨rfl, _, rfl⟩

theorem log_handle : (a.handle calls debug delivery).1.replicationLog =
    if (a.admitted delivery.write).2 then a.recorded delivery.write else a.replicationLog := by
  unfold handle
  dsimp only
  split <;> rfl

end GraphServiceAdapter

namespace ShardReplicationLog
variable {Op : Type} {log : ShardReplicationLog Op} {shard : ShardId} {seq : ReplicationSeq}

theorem shardLog_recordReplica_of_lt (h : log.highWater shard < seq) (op : Op) (other : ShardId) :
    (log.recordReplica shard seq op).1.shardLog other =
      if shard = other then (log.shardLog shard).push log.maxEntries seq op else log.shardLog other := by
  have hlt : (log.shardLog shard).highWater < seq := h
  simp only [recordReplica, if_pos hlt]
  exact log.shardLog_put shard _ other

theorem shardLog_recordReplica_of_le (h : seq ≤ log.highWater shard) (op : Op) (other : ShardId) :
    (log.recordReplica shard seq op).1.shardLog other = log.shardLog other := by
  have hle : ¬ (log.shardLog shard).highWater < seq := not_lt.mpr h
  simp only [recordReplica, if_neg hle]
  rw [log.shardLog_put shard _ other]
  split
  · next heq => rw [heq]
  · rfl

end ShardReplicationLog

namespace Follower
variable {G : Type} {calls : GraphCalls G} {debug : GraphOperation → String} {f : Follower G}
    {delivery : Delivery}

theorem adapter_step :
    (f.step calls debug delivery).adapter = (f.adapter.handle calls debug delivery).1 := by
  unfold step
  dsimp only
  split <;> rfl

theorem applied_step_of_executable (hadmits : (f.adapter.admitted delivery.write).2 = true)
    (h : delivery.Executable) :
    (f.step calls debug delivery).applied =
      (delivery.write.shardId, delivery.write.seq, delivery.write.inner) :: f.applied := by
  obtain ⟨result, hresult⟩ := GraphServiceAdapter.handle_of_executable hadmits h
  unfold step
  dsimp only
  rw [hresult]

theorem applied_step_of_not
    (h : ¬ ((f.adapter.admitted delivery.write).2 = true ∧ delivery.Executable)) :
    (f.step calls debug delivery).applied = f.applied := by
  obtain ⟨-, error, herror⟩ := GraphServiceAdapter.handle_of_not h
  unfold step
  dsimp only
  rw [herror]

theorem log_step_of_records (h : f.Records delivery.write) :
    ∃ log ∈ f.adapter.replicationLog, ∃ log', (f.step calls debug delivery).adapter.replicationLog = some log' ∧
      log.highWater delivery.write.shardId < delivery.write.seq ∧
      ∀ shard, log'.shardLog shard =
        if delivery.write.shardId = shard then
          (log.shardLog delivery.write.shardId).push log.maxEntries delivery.write.seq delivery.write.inner
        else log.shardLog shard := by
  obtain ⟨hadmits, hseq, log, hlog, hhigh⟩ := h
  refine ⟨log, hlog, (log.recordReplica delivery.write.shardId delivery.write.seq delivery.write.inner).1, ?_, hhigh, ?_⟩
  · rw [adapter_step, GraphServiceAdapter.log_handle, if_pos hadmits, GraphServiceAdapter.recorded,
      if_pos hseq, Option.mem_def.mp hlog]
    rfl
  · exact shardLog_recordReplica_of_lt hhigh _

theorem log_step_of_not_records (h : ¬ f.Records delivery.write)
    {log' : ShardReplicationLog GraphOperation}
    (hlog' : log' ∈ (f.step calls debug delivery).adapter.replicationLog) :
    ∃ log ∈ f.adapter.replicationLog, (∀ shard, log'.shardLog shard = log.shardLog shard) ∧
      ((f.adapter.admitted delivery.write).2 = true → delivery.write.seq ≤ log.highWater delivery.write.shardId) := by
  rw [adapter_step, GraphServiceAdapter.log_handle] at hlog'
  split at hlog'
  · next hadmits =>
    unfold GraphServiceAdapter.recorded at hlog'
    split at hlog'
    · next hseq =>
      obtain ⟨log, hlog, rfl⟩ := Option.mem_map.mp hlog'
      have hle : delivery.write.seq ≤ log.highWater delivery.write.shardId := by
        apply not_lt.mp
        exact fun hlt => h ⟨hadmits, hseq, log, hlog, hlt⟩
      exact ⟨log, hlog, shardLog_recordReplica_of_le hle _, fun _ => hle⟩
    · next hzero =>
      refine ⟨log', hlog', fun _ => rfl, fun _ => ?_⟩
      exact (not_lt.mp hzero).trans (Fin.zero_le _)
  · next hnot => exact ⟨log', hlog', fun _ => rfl, fun hadmits => absurd hadmits hnot⟩

theorem mem_applied_step {entry : ShardId × ReplicationSeq × GraphOperation}
    (h : entry ∈ f.applied) :
    entry ∈ (f.step calls debug delivery).applied := by
  by_cases hexecuted : (f.adapter.admitted delivery.write).2 = true ∧ delivery.Executable
  · rw [applied_step_of_executable hexecuted.1 hexecuted.2]
    exact mem_cons_of_mem _ h
  · rw [applied_step_of_not hexecuted]
    exact h

theorem of_mem_applied_step {shard : ShardId} {seq : ReplicationSeq} {op : GraphOperation}
    (h : (shard, seq, op) ∈ (f.step calls debug delivery).applied) :
    (shard, seq, op) ∈ f.applied ∨
      (f.adapter.admitted delivery.write).2 = true ∧ shard = delivery.write.shardId ∧ seq = delivery.write.seq := by
  by_cases hexecuted : (f.adapter.admitted delivery.write).2 = true ∧ delivery.Executable
  · rw [applied_step_of_executable hexecuted.1 hexecuted.2] at h
    obtain heq | hold := mem_cons.mp h
    · cases heq
      exact .inr ⟨hexecuted.1, rfl, rfl⟩
    · exact .inl hold
  · rw [applied_step_of_not hexecuted] at h
    exact .inl h

/-! ### Runs -/

theorem InStep.step (h : f.InStep) (hdelivery : f.RecordsExecutable delivery) :
    (f.step calls debug delivery).InStep := by
  by_cases hrecords : f.Records delivery.write
  · obtain ⟨log, hlog, new, hnew, hhigh, hshards⟩ := @log_step_of_records G calls debug f delivery hrecords
    have happlied := @applied_step_of_executable G calls debug f delivery hrecords.1 (hdelivery hrecords)
    constructor
    · intro log' hlog' shard entry hentry
      cases hnew.symm.trans hlog'
      rw [hshards] at hentry
      split at hentry
      · next heq =>
        subst heq
        obtain hold | hself := ShardLog.mem_of_mem_push hentry
        · exact mem_applied_step (h.logApplied log hlog _ entry hold)
        · rw [hself, happlied]
          exact mem_cons_self
      · exact mem_applied_step (h.logApplied log hlog shard entry hentry)
    · intro log' hlog' shard seq op hmem
      cases hnew.symm.trans hlog'
      rw [highWater, hshards]
      obtain hold | ⟨-, rfl, rfl⟩ := of_mem_applied_step hmem
      · have hle := h.le_highWater log hlog shard seq op hold
        split
        · next heq =>
          subst heq
          exact hle.trans hhigh.le
        · exact hle
      · rw [if_pos rfl]
        exact le_refl _
  · constructor
    · intro log' hlog' shard entry hentry
      obtain ⟨log, hlog, hshards, -⟩ := log_step_of_not_records hrecords hlog'
      rw [hshards] at hentry
      exact mem_applied_step (h.logApplied log hlog shard entry hentry)
    · intro log' hlog' shard seq op hmem
      obtain ⟨log, hlog, hshards, hle⟩ := log_step_of_not_records hrecords hlog'
      rw [highWater, hshards]
      obtain hold | ⟨hadmits, rfl, rfl⟩ := of_mem_applied_step hmem
      · exact h.le_highWater log hlog shard seq op hold
      · exact hle hadmits

theorem InStep.not_logApplied (h : f.InStep) (hdelivery : ¬ f.RecordsExecutable delivery) :
    ¬ (f.step calls debug delivery).LogApplied := by
  intro happlied
  obtain ⟨hrecords, hfails⟩ := Classical.not_imp.mp hdelivery
  obtain ⟨log, hlog, new, hnew, hhigh, hshards⟩ :=
    @log_step_of_records G calls debug f delivery hrecords
  have hentry : (delivery.write.seq, delivery.write.inner) ∈ (new.shardLog delivery.write.shardId).entries := by
    rw [hshards, if_pos rfl]
    exact ShardLog.mem_push_self log.maxEntries_pos
  have hmem := happlied new hnew _ _ hentry
  rw [applied_step_of_not fun hexecuted => hfails hexecuted.2] at hmem
  exact absurd hhigh (not_lt.mpr (h.le_highWater log hlog _ _ _ hmem))

/-- **The log of a follower agrees with its graph** all along a sequence of deliveries exactly when
each write that is recorded can be executed. -/
theorem logAppliedThroughout_iff_along (h : f.InStep) (deliveries : List Delivery) :
    f.LogAppliedThroughout calls debug deliveries ↔ Along (step calls debug) RecordsExecutable f deliveries :=
  forall_take_iff_along (fun _ _ hf hdelivery => hf.step hdelivery) (fun _ hf => hf.logApplied)
    (fun _ _ hf hdelivery => hf.not_logApplied hdelivery) h deliveries

/-! ### Writes of one property -/

def countCalls : GraphCalls Nat := ⟨fun graph _ _ _ => graph + 1, fun graph _ _ => graph + 1⟩

def fresh : Follower Nat := ⟨⟨0, some .new, some (.new 16)⟩, []⟩

theorem inStep_fresh : fresh.InStep := by
  constructor
  · intro log hlog shard entry hentry
    cases hlog
    exact absurd hentry not_mem_nil
  · intro log _ shard seq op hmem
    exact absurd hmem not_mem_nil

def rename (seq : ReplicationSeq) (fault : Option String) : Delivery :=
  ⟨⟨0, 1, seq, .setProperty ⟨[1]⟩ "name" .null⟩, fault⟩

/-- Deliveries out of order and twice: what comes too late is executed, but not recorded, and may
fail. -/
theorem logAppliedThroughout_rename :
    fresh.LogAppliedThroughout countCalls (fun _ => "") [rename 2 none, rename 1 (some "io"), rename 2 none] := by
  refine (logAppliedThroughout_iff_along inStep_fresh _).mpr ⟨?_, ?_, ?_, trivial⟩
  · exact fun _ => ⟨rfl, rfl⟩
  · rintro ⟨-, -, log, hlog, hhigh⟩
    cases hlog
    exact absurd hhigh (by decide)
  · exact fun _ => ⟨rfl, rfl⟩

/-- The graph service fails, and the log holds the write all the same. -/
theorem not_logAppliedThroughout_rename :
    ¬ fresh.LogAppliedThroughout countCalls (fun _ => "") [rename 1 (some "io")] := by
  intro h
  have hmem : (0, 1, GraphOperation.setProperty ⟨[1]⟩ "name" .null) ∈
      ([] : List (ShardId × ReplicationSeq × GraphOperation)) := h 1 _ rfl 0 (1, _) mem_cons_self
  exact absurd hmem not_mem_nil

end Follower
end Nexora.Cluster
