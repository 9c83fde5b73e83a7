import Nexora.Lib.Bytes
import Nexora.Lib.Json
import Nexora.Lib.Table

/-!
# The ingestion pipeline

One task polls the sources, puts each batch into a bounded channel and commits its offset as soon as
the channel has taken it (`nexora-stream/src/lib.rs`). Another hands the batches to the handler and
notes the offsets for the manifests. A batch that the handler fails on is dropped.
-/

namespace Nexora.Stream
open Lib List Json Option

/-! ### Batches and offsets -/

structure IngestRecord (R : Type) where
  offset : Nat
  content : R

structure IngestBatch (R : Type) where
  records : List (IngestRecord R)
  partition : List UInt8
  offsetStart : Nat
  offsetEnd : Nat
  topic : List UInt8

structure SourceOffset where
  topic : List UInt8
  partition : List UInt8
  offset : Nat

def offsetKey (topic partition : List UInt8) : List UInt8 := topic ++ ascii ":" ++ partition

abbrev Offsets := Table (List UInt8) Nat

structure IngestionStats where
  recordsIngested : Nat
  batchesProcessed : Nat
  errors : Nat
  lastOffset : Option SourceOffset

namespace IngestionStats

def default : IngestionStats := ⟨0, 0, 0, none⟩

end IngestionStats

structure Delivered (R : Type) where
  source : Nat
  topic : List UInt8
  partition : List UInt8
  record : IngestRecord R

structure Delivery (R : Type) where
  source : Nat
  batch : IngestBatch R

namespace Delivery
variable {R : Type}

def records (d : Delivery R) : List (Delivered R) :=
  d.batch.records.map fun record => ⟨d.source, d.batch.topic, d.batch.partition, record⟩

def offset (d : Delivery R) : SourceOffset :=
  ⟨d.batch.topic, d.batch.partition, d.batch.offsetEnd - 1⟩

end Delivery

/-! ### The two tasks -/

/-- Where the task that runs the sources is. In the arms of the timers, the sources that it has
still to see to. -/
inductive LoopTask (R : Type) where
  | select
  | polling (rest : List Nat)
  | sending (d : Delivery R) (rest : List Nat)
  | committing (source : Nat) (offset : SourceOffset) (rest : List Nat)
  | committingLast (rest : List Nat)
  | checkpointing (offsets : Offsets)
  | stopped

namespace LoopTask
variable {R : Type}

def pollNext : List Nat → LoopTask R
  | [] => select
  | source :: rest => polling (source :: rest)

def commitNext : List Nat → LoopTask R
  | [] => select
  | source :: rest => committingLast (source :: rest)

def held : LoopTask R → List (Delivered R)
  | sending d _ => d.records
  | _ => []

@[simp] theorem held_pollNext (rest : List Nat) :
    (pollNext rest : LoopTask R).held = [] := by cases rest <;> rfl

@[simp] theorem held_commitNext (rest : List Nat) :
    (commitNext rest : LoopTask R).held = [] := by cases rest <;> rfl

end LoopTask

/-- What survives the process: an offset that a source has as committed, or a manifest. -/
inductive Persisted where
  | committed (source : Nat) (offset : SourceOffset)
  | manifest (offsets : Offsets)

namespace Persisted

def manifest? : Persisted → Option Offsets
  | committed _ _ => none
  | manifest offsets => some offsets

def Covers {R : Type} : Persisted → Delivered R → Prop
  | committed source offset, r =>
      r.source = source ∧ r.topic = offset.topic ∧ r.partition = offset.partition ∧ r.record.offset ≤ offset.offset
  | manifest offsets, r => ∃ bound, offsets.find? (offsetKey r.topic r.partition) = some bound ∧ r.record.offset ≤ bound

end Persisted

/-- The pipeline with its sources and the graph. Of the last three fields, `read` has all records
that were ever polled, `applied` those that the graph has taken, and `lost` those of batches that
were given up. -/
structure PipelineState (R : Type) where
  task : LoopTask R
  channel : List (Delivery R)
  receiving : Bool
  handling : Option (Delivery R)
  latestOffsets : Offsets
  stats : Table (List UInt8) IngestionStats
  sourceLastOffset : Nat → Option SourceOffset
  persisted : List Persisted
  read : List (Delivered R)
  applied : List (Delivered R)
  lost : List (Delivered R)

/-- What becomes of a batch in the handler. One that fails may have been written in part. -/
inductive Handled (R : Type) where
  | ok (count : Nat)
  | failed (written : Delivered R → Bool)

/-- Steps of the two tasks. Operations on sources and stores come with their outcome. A commit or a
checkpoint that reports an error may have taken effect or not. -/
inductive Action (R : Type) where
  | commitTick
  | checkpointTick
  | pollTick
  | polled (result : Except String (Option (IngestBatch R)))
  | send
  | commit (effective : Bool)
  | checkpointed (saved : Bool)
  | receive
  | handled (result : Handled R)
  | processorDies
  | crash (plan : Option Nat) (started : Bool)

def channelCapacity : Nat := 100

namespace PipelineState
variable {R : Type}

def new : PipelineState R where
  task := .select
  channel := []
  receiving := true
  handling := none
  latestOffsets := Table.empty
  stats := Table.empty
  sourceLastOffset := fun _ => none
  persisted := []
  read := []
  applied := []
  lost := []

def queued (s : PipelineState R) : List (Delivered R) :=
  s.channel.flatMap Delivery.records ++ s.handling.toList.flatMap Delivery.records

def inFlight (s : PipelineState R) : List (Delivered R) := s.task.held ++ s.queued

def manifests (s : PipelineState R) : List Offsets := s.persisted.filterMap Persisted.manifest?

def commitTo (s : PipelineState R) (source : Nat) (offset : SourceOffset) (effective : Bool) :
    PipelineState R :=
  { s with
    sourceLastOffset := Function.update s.sourceLastOffset source (some offset)
    persisted := s.persisted ++ if effective then [.committed source offset] else [] }

def addStats (s : PipelineState R) (topic : List UInt8) (f : IngestionStats → IngestionStats) :
    PipelineState R :=
  { s with stats := s.stats.put topic (f ((s.stats.find? topic).getD .default)) }

def afterPoll (s : PipelineState R) (source : Nat) (rest : List Nat) :
    Except String (Option (IngestBatch R)) → PipelineState R
  | .ok (some batch) => { s with task := .sending ⟨source, batch⟩ rest, read := s.read ++ Delivery.records ⟨source, batch⟩ }
  | .ok none => { s with task := .pollNext rest }
  | .error _ => { s with task := .pollNext rest }

/-- Waits while the channel is full. If the other task is gone, the batch is dropped and the sources
that remain are not polled. -/
def afterSend (s : PipelineState R) (d : Delivery R) (rest : List Nat) : PipelineState R :=
  if s.receiving = false then { s with task := .select, lost := s.lost ++ d.records }
  else if s.channel.length < channelCapacity then
    { s with task := .committing d.source d.offset rest, channel := s.channel ++ [d] }
  else s

def afterHandled (s : PipelineState R) (d : Delivery R) : Handled R → PipelineState R
  | .ok count =>
      { s with
        handling := none
        latestOffsets := s.latestOffsets.put (offsetKey d.offset.topic d.offset.partition) d.offset.offset
        applied := s.applied ++ d.records }.addStats d.batch.topic fun stats =>
          { stats with
            recordsIngested := stats.recordsIngested + count
            batchesProcessed := stats.batchesProcessed + 1
            lastOffset := some d.offset }
  | .failed written =>
      { s with
        handling := none
        applied := s.applied ++ d.records.filter written
        lost := s.lost ++ d.records }.addStats d.batch.topic fun stats => { stats with errors := stats.errors + 1 }

def restarted (s : PipelineState R) (plan : Option Nat) (started : Bool) : PipelineState R :=
  { new with
    task := if started then .select else .stopped
    latestOffsets := Table.empty.putAll (((plan.bind fun n => s.manifests[n]?).map Table.rows).getD [])
    persisted := s.persisted
    read := s.read
    applied := s.applied
    lost := s.lost ++ s.inFlight }

/-- One step of one of the tasks; `sources` is the number of sources, and `checkpoint` tells whether
there is a coordinator. -/
def step (sources : Nat) (checkpoint : Bool) (s : PipelineState R) : Action R → PipelineState R
  | .commitTick =>
    match s.task with
    | .select => { s with task := .commitNext (range sources) }
    | _ => s
  | .checkpointTick =>
    match s.task with
    | .select => if checkpoint ∧ s.latestOffsets.rows ≠ [] then { s with task := .checkpointing s.latestOffsets } else s
    | _ => s
  | .pollTick =>
    match s.task with
    | .select => { s with task := .pollNext (range sources) }
    | _ => s
  | .polled result =>
    match s.task with
    | .polling (source :: rest) => s.afterPoll source rest result
    | _ => s
  | .send =>
    match s.task with
    | .sending d rest => s.afterSend d rest
    | _ => s
  | .commit effective =>
    match s.task with
    | .committing source offset rest => { s.commitTo source offset effective with task := .pollNext rest }
    | .committingLast (source :: rest) =>
      match s.sourceLastOffset source with
      | none => { s with task := .commitNext rest }
      | some offset => { s.commitTo source offset effective with task := .commitNext rest }
    | _ => s
  | .checkpointed saved =>
    match s.task with
    | .checkpointing offsets =>
      { s with task := .select, persisted := s.persisted ++ if saved then [.manifest offsets] else [] }
    | _ => s
  | .receive =>
    match s.receiving, s.handling, s.channel with
    | true, none, d :: channel => { s with handling := some d, channel := channel }
    | _, _, _ => s
  | .handled result =>
    match s.handling with
    | some d => s.afterHandled d result
    | none => s
  | .processorDies =>
    { s with receiving := false, channel := [], handling := none, lost := s.lost ++ s.queued }
  | .crash plan started => s.restarted plan started

/-! ### What a step does -/

/-- The records that were polled and that no handler has reported as written: those in flight and
those given up. -/
def outstanding (s : PipelineState R) : List (Delivered R) := s.inFlight ++ s.lost

def polledRecords (s : PipelineState R) : Action R → List (Delivered R)
  | .polled (.ok (some batch)) =>
    match s.task with
    | .polling (source :: _) => Delivery.records ⟨source, batch⟩
    | _ => []
  | _ => []

def persists (s : PipelineState R) : Action R → List Persisted
  | .commit true =>
    match s.task with
    | .committing source offset _ => [.committed source offset]
    | .committingLast (source :: _) => (s.sourceLastOffset source).toList.map (.committed source)
    | _ => []
  | .checkpointed true =>
    match s.task with
    | .checkpointing offsets => [.manifest offsets]
    | _ => []
  | _ => []

/-- What a step leaves of the records: none is dropped without being applied or counted as lost, and
none comes in but by polling. -/
structure Accounts (s t : PipelineState R) (polled : List (Delivered R))
    (persisted : List Persisted) : Prop where
  read_eq : t.read = s.read ++ polled
  persisted_eq : t.persisted = s.persisted ++ persisted
  applied : ∀ r ∈ s.applied, r ∈ t.applied
  kept : ∀ r, r ∈ s.outstanding ∨ r ∈ polled → r ∈ t.outstanding ∨ r ∈ t.applied
  known : ∀ r ∈ t.outstanding, r ∈ s.outstanding ∨ r ∈ polled
  applied_eq : polled ≠ [] ∨ persisted ≠ [] → t.applied = s.applied
  polled_or : polled = [] ∨ persisted = []

variable {s t : PipelineState R}

theorem Accounts.of_eq (hread : t.read = s.read) (hpersisted : t.persisted = s.persisted)
    (happlied : t.applied = s.applied) (houtstanding : ∀ r, r ∈ t.outstanding ↔ r ∈ s.outstanding) :
    Accounts s t [] [] where
  read_eq := by rw [hread, append_nil]
  persisted_eq := by rw [hpersisted, append_nil]
  applied r hr := happlied ▸ hr
  kept r hr := .inl ((houtstanding r).mpr (hr.resolve_right not_mem_nil))
  known r hr := .inl ((houtstanding r).mp hr)
  applied_eq _ := happlied
  polled_or := .inl rfl

theorem Accounts.refl (s : PipelineState R) : Accounts s s [] [] :=
  .of_eq rfl rfl rfl fun _ => Iff.rfl

theorem mem_outstanding {r : Delivered R} : r ∈ s.outstanding ↔
      r ∈ s.task.held ∨ r ∈ s.channel.flatMap Delivery.records ∨
        r ∈ s.handling.toList.flatMap Delivery.records ∨ r ∈ s.lost := by
  simp [outstanding, inFlight, queued]

variable {task : LoopTask R} {rest : List Nat} {d : Delivery R}

theorem Accounts.of_task (hs : s.task.held = []) (ht : task.held = []) :
    Accounts s { s with task := task } [] [] :=
  .of_eq rfl rfl rfl fun r => by rw [mem_outstanding, mem_outstanding, hs, ht]

theorem Accounts.of_persist (hs : s.task.held = []) (ht : task.held = [])
    (last : Nat → Option SourceOffset) (persisted : List Persisted) :
    Accounts s { s with task := task, sourceLastOffset := last, persisted := s.persisted ++ persisted } [] persisted where
  read_eq := (append_nil s.read).symm
  persisted_eq := rfl
  applied _ hr := hr
  kept r hr := by
    rw [mem_outstanding, hs] at hr
    rw [mem_outstanding, ht]
    exact .inl (hr.resolve_right not_mem_nil)
  known r hr := by
    rw [mem_outstanding, ht] at hr
    rw [mem_outstanding, hs]
    exact .inl hr
  applied_eq _ := rfl
  polled_or := .inl rfl

theorem Accounts.of_polled (hs : s.task.held = []) (d : Delivery R) (rest : List Nat) :
    Accounts s { s with task := .sending d rest, read := s.read ++ d.records } d.records [] where
  read_eq := rfl
  persisted_eq := (append_nil s.persisted).symm
  applied _ hr := hr
  kept r hr := by
    rw [mem_outstanding, hs, mem_nil_iff, false_or] at hr
    rw [mem_outstanding]
    exact .inl hr.symm
  known r hr := by
    rw [mem_outstanding] at hr
    rw [mem_outstanding, hs, mem_nil_iff, false_or]
    exact hr.symm
  applied_eq _ := rfl
  polled_or := .inr rfl

theorem accounts_afterPoll {source : Nat} (result : Except String (Option (IngestBatch R)))
    (hs : s.task = .polling (source :: rest)) :
    Accounts s (s.afterPoll source rest result) (s.polledRecords (.polled result)) [] := by
  have hheld : s.task.held = [] := congrArg LoopTask.held hs
  match result with
  | .ok (some batch) =>
    have hpolled : s.polledRecords (.polled (.ok (some batch))) =
        Delivery.records ⟨source, batch⟩ := by rw [polledRecords, hs]
    rw [hpolled]
    exact .of_polled hheld ⟨source, batch⟩ rest
  | .ok none | .error e => exact .of_task hheld (LoopTask.held_pollNext rest)

theorem accounts_afterSend (hs : s.task = .sending d rest) :
    Accounts s (s.afterSend d rest) [] [] := by
  have hheld : s.task.held = d.records := congrArg LoopTask.held hs
  unfold afterSend
  split_ifs
  · refine .of_eq rfl rfl rfl fun r => ?_
    rw [mem_outstanding, mem_outstanding, hheld]
    simp only [mem_append]
    tauto
  · refine .of_eq rfl rfl rfl fun r => ?_
    rw [mem_outstanding, mem_outstanding, hheld]
    simp only [flatMap_append, flatMap_singleton, mem_append]
    tauto
  · exact .refl s

theorem accounts_afterHandled (result : Handled R) (hs : s.handling = some d) :
    Accounts s (s.afterHandled d result) [] [] := by
  have hqueued : s.handling.toList.flatMap Delivery.records = d.records := by rw [hs, toList_some, flatMap_singleton]
  refine ⟨?_, ?_, fun r hr => ?_, fun r hr => ?_, fun r hr => ?_, fun h => by simp at h, .inl rfl⟩
  · cases result <;> exact (append_nil _).symm
  · cases result <;> exact (append_nil _).symm
  · cases result <;> exact mem_append_left _ hr
  · rw [mem_outstanding, hqueued] at hr
    rw [mem_outstanding]
    cases result with
    | ok count | failed written =>
      simp only [afterHandled, addStats, mem_append]
      tauto
  · rw [mem_outstanding] at hr
    rw [mem_outstanding, hqueued]
    cases result with
    | ok count =>
      tauto
    | failed written =>
      simp only [afterHandled, addStats, mem_append] at hr
      tauto

theorem accounts_step (sources : Nat) (checkpoint : Bool) (s : PipelineState R) (a : Action R) :
    Accounts s (s.step sources checkpoint a) (s.polledRecords a) (s.persists a) := by
  cases a with
  | commitTick =>
    simp only [step]
    split
    · next hs => exact .of_task (congrArg LoopTask.held hs) (LoopTask.held_commitNext _)
    · exact .refl s
  | checkpointTick =>
    simp only [step]
    split
    · next hs =>
      split
      · exact .of_task (congrArg LoopTask.held hs) rfl
      · exact .refl s
    · exact .refl s
  | pollTick =>
    simp only [step]
    split
    · next hs => exact .of_task (congrArg LoopTask.held hs) (LoopTask.held_pollNext _)
    · exact .refl s
  | polled result =>
    simp only [step]
    split
    · next source rest hs => exact accounts_afterPoll result hs
    · next hs =>
      have hnone : s.polledRecords (.polled result) = [] := by
        unfold polledRecords
        split
        · split
          · next source rest hs' => exact absurd hs' (hs source rest)
          · rfl
        · rfl
      rw [hnone]
      exact .refl s
  | send =>
    simp only [step]
    split
    · next hs => exact accounts_afterSend hs
    · exact .refl s
  | commit effective =>
    simp only [step]
    split
    · next source offset rest hs =>
      have hpersists : s.persists (.commit effective) = if effective then [.committed source offset] else [] := by
        cases effective with
        | true => rw [persists, hs, if_pos rfl]
        | false => rfl
      rw [hpersists]
      exact .of_persist (congrArg LoopTask.held hs) (LoopTask.held_pollNext rest) _ _
    · next source rest hs =>
      cases hlast : s.sourceLastOffset source with
      | none =>
        have hpersists : s.persists (.commit effective) = [] := by
          cases effective with
          | true => simp only [persists, hs, hlast, toList_none, map_nil]
          | false => rfl
        rw [hpersists]
        exact .of_task (congrArg LoopTask.held hs) (LoopTask.held_commitNext rest)
      | some offset =>
        have hpersists : s.persists (.commit effective) = if effective then [.committed source offset] else [] := by
          cases effective with
          | true => simp only [persists, hs, hlast, toList_some, map_cons, map_nil, if_true]
          | false => rfl
        rw [hpersists]
        exact .of_persist (congrArg LoopTask.held hs) (LoopTask.held_commitNext rest) _ _
    · next hs hs' =>
      have hpersists : s.persists (.commit effective) = [] := by
        cases effective with
        | true => simp only [persists]
        | false => rfl
      rw [hpersists]
      exact .refl s
  | checkpointed saved =>
    simp only [step]
    split
    · next offsets hs =>
      have hpersists : s.persists (.checkpointed saved) = if saved then [.manifest offsets] else [] := by
        cases saved with
        | true => rw [persists, hs, if_pos rfl]
        | false => rfl
      rw [hpersists]
      exact .of_persist (congrArg LoopTask.held hs) rfl s.sourceLastOffset _
    · next hs =>
      have hpersists : s.persists (.checkpointed saved) = [] := by
        cases saved with
        | true => simp only [persists]
        | false => rfl
      rw [hpersists]
      exact .refl s
  | receive =>
    simp only [step]
    split
    · next d channel _ hhandling hchannel =>
      refine .of_eq rfl rfl rfl fun r => ?_
      rw [mem_outstanding, mem_outstanding, hhandling, hchannel]
      simp only [toList_some, toList_none, flatMap_cons, flatMap_nil, append_nil, mem_append,
        not_mem_nil, false_or]
      tauto
    · exact .refl s
  | handled result =>
    simp only [step]
    split
    · next d hs => exact accounts_afterHandled result hs
    · exact .refl s
  | processorDies =>
    refine .of_eq rfl rfl rfl fun r => ?_
    rw [mem_outstanding, mem_outstanding]
    simp only [step, queued, mem_append]
    tauto
  | crash plan started =>
    refine .of_eq rfl rfl rfl fun r => ?_
    have htask : (s.step sources checkpoint (.crash plan started)).task.held = [] := by cases started <;> rfl
    rw [mem_outstanding, mem_outstanding, htask]
    simp only [step, restarted, inFlight, queued, mem_append]
    tauto

/-! ### Runs -/

/-- Every record that was polled and whose offset is at most a persisted one has been applied to the
graph. -/
def AtLeastOnce (s : PipelineState R) : Prop :=
  ∀ p ∈ s.persisted, ∀ r ∈ s.read, p.Covers r → r ∈ s.applied

/-- The step persists no offset at or above that of a record that is still in flight or was given
up, and polls no record at or below a persisted offset, unless the record has been applied. -/
def Settled (s : PipelineState R) (a : Action R) : Prop :=
  (∀ p ∈ s.persists a, ∀ r ∈ s.outstanding, p.Covers r → r ∈ s.applied) ∧
    ∀ r ∈ s.polledRecords a, ∀ p ∈ s.persisted, p.Covers r → r ∈ s.applied

structure Accounted (s : PipelineState R) : Prop where
  settled : ∀ r ∈ s.read, r ∈ s.applied ∨ r ∈ s.outstanding
  read : ∀ r ∈ s.outstanding, r ∈ s.read

variable {sources : Nat} {checkpoint : Bool} {a : Action R}

theorem Accounted.step (h : Accounted s) : Accounted (s.step sources checkpoint a) := by
  have hstep := accounts_step sources checkpoint s a
  constructor
  · intro r hr
    rw [hstep.read_eq] at hr
    obtain hr | hr := mem_append.mp hr
    · obtain happlied | houtstanding := h.settled r hr
      · exact .inl (hstep.applied r happlied)
      · exact (hstep.kept r (.inl houtstanding)).symm
    · exact (hstep.kept r (.inr hr)).symm
  · intro r hr
    rw [hstep.read_eq]
    exact mem_append.mpr ((hstep.known r hr).imp_left (h.read r))

theorem accounted_new : Accounted (new : PipelineState R) :=
  ⟨fun _ hr => absurd hr not_mem_nil, fun _ hr => absurd hr not_mem_nil⟩

theorem AtLeastOnce.step (haccounted : Accounted s) (h : AtLeastOnce s) (hsettled : s.Settled a) :
    AtLeastOnce (s.step sources checkpoint a) := by
  have hstep := accounts_step sources checkpoint s a
  intro p hp r hr hcovers
  rw [hstep.persisted_eq] at hp
  rw [hstep.read_eq] at hr
  obtain hr | hr := mem_append.mp hr
  · obtain hp | hp := mem_append.mp hp
    · exact hstep.applied r (h p hp r hr hcovers)
    · obtain happlied | houtstanding := haccounted.settled r hr
      · exact hstep.applied r happlied
      · exact hstep.applied r (hsettled.1 p hp r houtstanding hcovers)
  · obtain hp | hp := mem_append.mp hp
    · exact hstep.applied r (hsettled.2 r hr p hp hcovers)
    · obtain hnone | hnone := hstep.polled_or
      · rw [hnone] at hr
        cases hr
      · rw [hnone] at hp
        cases hp

theorem settled_of_atLeastOnce_step (haccounted : Accounted s)
    (h : AtLeastOnce (s.step sources checkpoint a)) : s.Settled a := by
  have hstep := accounts_step sources checkpoint s a
  constructor
  · intro p hp r hr hcovers
    have happlied := h p (hstep.persisted_eq ▸ mem_append_right _ hp) r
      (hstep.read_eq ▸ mem_append_left _ (haccounted.read r hr)) hcovers
    rwa [hstep.applied_eq (.inr (ne_nil_of_mem hp))] at happlied
  · intro r hr p hp hcovers
    have happlied := h p (hstep.persisted_eq ▸ mem_append_left _ hp) r (hstep.read_eq ▸ mem_append_right _ hr) hcovers
    rwa [hstep.applied_eq (.inl (ne_nil_of_mem hr))] at happlied

/-- **Ingestion at least once.** In a run of the pipeline, with any batches, failures and crashes,
the records at or below the offsets that are committed or bound into manifests are at all times
among those applied to the graph, exactly if no such offset is persisted over a record that is still
in the channel, on its way there or in the handler, or that was given up before. -/
theorem atLeastOnce_iff_along (sources : Nat) (checkpoint : Bool) (actions : List (Action R)) :
    (∀ k, AtLeastOnce (run (step sources checkpoint) new (actions.take k))) ↔
      Along (step sources checkpoint) Settled (new : PipelineState R) actions := by
  have hstep : ∀ (s : PipelineState R) (a : Action R), Accounted s ∧ AtLeastOnce s → s.Settled a →
      Accounted (s.step sources checkpoint a) ∧ AtLeastOnce (s.step sources checkpoint a) :=
    fun s a hinv hsettled => ⟨hinv.1.step, hinv.2.step hinv.1 hsettled⟩
  have hnew : Accounted (new : PipelineState R) ∧ AtLeastOnce (new : PipelineState R) :=
    ⟨accounted_new, fun p hp => absurd hp not_mem_nil⟩
  exact forall_take_iff_along hstep (fun s hinv => hinv.2)
    (fun s a hinv hnot h => hnot (settled_of_atLeastOnce_step hinv.1 h)) hnew actions

/-! ### Single runs -/

def single (offset : Nat) : Action Unit :=
  .polled (.ok (some ⟨[⟨offset, ()⟩], ascii "0", offset, offset + 1, ascii "t"⟩))

theorem settled_of_eq_nil (hpersists : s.persists a = [] ∨ s.outstanding = [])
    (hpolled : s.polledRecords a = [] ∨ s.persisted = []) :
    s.Settled a := by
  constructor
  · intro p hp r hr
    obtain hnone | hnone := hpersists
    · rw [hnone] at hp
      cases hp
    · rw [hnone] at hr
      cases hr
  · intro r hr p hp
    obtain hnone | hnone := hpolled
    · rw [hnone] at hr
      cases hr
    · rw [hnone] at hp
      cases hp

/-- The handler is through with the batch before the commit that follows on sending, and a
checkpoint is taken afterwards. -/
def appliedFirst : List (Action Unit) :=
  [.pollTick, single 0, .send, .receive, .handled (.ok 1), .commit true, .checkpointTick, .checkpointed true]

theorem atLeastOnce_appliedFirst :
    (run (step 1 true) (new : PipelineState Unit) appliedFirst).persisted.length = 2 ∧
      ∀ k, AtLeastOnce (run (step 1 true) (new : PipelineState Unit) (appliedFirst.take k)) := by
  have halong : Along (step 1 true) Settled (new : PipelineState Unit) appliedFirst :=
    ⟨settled_of_eq_nil (.inl rfl) (.inl rfl), settled_of_eq_nil (.inl rfl) (.inr rfl),
      settled_of_eq_nil (.inl rfl) (.inl rfl),
      settled_of_eq_nil (.inl rfl) (.inl rfl), settled_of_eq_nil (.inl rfl) (.inl rfl),
        settled_of_eq_nil (.inr rfl) (.inl rfl),
      settled_of_eq_nil (.inl rfl) (.inl rfl), settled_of_eq_nil (.inr rfl) (.inl rfl), trivial⟩
  exact ⟨rfl, (atLeastOnce_iff_along 1 true appliedFirst).mpr halong⟩

/-- The process ends between the commit and the handler. -/
def committedFirst : List (Action Unit) :=
  [.pollTick, single 0, .send, .commit true, .crash none true]

/-- The handler fails on the batch with the first record and takes the one with the second. -/
def failedBefore : List (Action Unit) :=
  [.pollTick, single 0, .send, .receive, .handled (.failed fun _ => false), .commit false,
    .pollTick, single 1, .send, .receive, .handled (.ok 1), .commit false, .checkpointTick, .checkpointed true]

/-- A record at or below a committed offset that no handler has seen, and one at or below an offset
of a manifest that the handler failed on. -/
theorem not_atLeastOnce_committed_not_atLeastOnce_manifest :
    ¬ AtLeastOnce (run (step 1 true) (new : PipelineState Unit) committedFirst) ∧
      ¬ AtLeastOnce (run (step 1 true) (new : PipelineState Unit) failedBefore) := by
  have hfirst : (⟨0, ascii "t", ascii "0", ⟨0, ()⟩⟩ : Delivered Unit) ∉
      (run (step 1 true) (new : PipelineState Unit) failedBefore).applied := by
    intro h
    obtain h := mem_singleton.mp h
    exact absurd (congrArg (fun r : Delivered Unit => r.record.offset) h) (by decide)
  constructor
  · intro h
    exact not_mem_nil (h (.committed 0 ⟨ascii "t", ascii "0", 0⟩) (mem_singleton.mpr rfl)
      ⟨0, ascii "t", ascii "0", ⟨0, ()⟩⟩ (mem_singleton.mpr rfl) ⟨rfl, rfl, rfl, Nat.le_refl 0⟩)
  · intro h
    exact hfirst (h (.manifest (Table.empty.put (offsetKey (ascii "t") (ascii "0")) 1)) (mem_singleton.mpr rfl)
      ⟨0, ascii "t", ascii "0", ⟨0, ()⟩⟩ mem_cons_self ⟨1, rfl, Nat.zero_le 1⟩)

end PipelineState
end Nexora.Stream
