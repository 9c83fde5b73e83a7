import Nexora.Stream.Barrier
import Nexora.Stream.Pipeline

/-!
# Checkpoints over restarts

A checkpoint saves a manifest under an epoch from a counter that starts at 1 in every process
(`nexora-barrier/src/lib.rs`, `nexora-stream/src/checkpoint.rs`). The file store keeps the two
highest epochs, and the RocksDB store refuses an epoch that is not above the latest.
-/

namespace Nexora.EpochBarrier.BarrierScheduler

/-! ### The reports of a checkpoint -/

/-- The first shards report that they have flushed, up to an error. -/
def reportShards (b : BarrierScheduler) (epoch : Nat) (counts : Nat → Nat) :
    Nat → BarrierScheduler × Except EpochError Unit
  | 0 => (b, .ok ())
  | n + 1 =>
    match b.reportShards epoch counts n with
    | (b, .ok ()) => b.reportShard epoch n (.flushed (counts n) (counts n))
    | failed => failed

def Settled (b : BarrierScheduler) : Prop := b.committedEpoch < b.currentEpoch

structure Reported (b : BarrierScheduler) (epoch n : Nat) (after : BarrierScheduler) : Prop where
  totalShards : after.totalShards = b.totalShards
  currentEpoch : after.currentEpoch = b.currentEpoch
  epochStates :
    after.epochStates epoch = some ⟨b.totalShards, Finset.range n, fun _ => none⟩
  committedEpoch : after.committedEpoch =
    if n = b.totalShards ∧ 0 < n then epoch else b.committedEpoch

variable {b after : BarrierScheduler}

theorem Reported.reportShard {epoch n : Nat} (h : Reported b epoch n after)
    (hepoch : b.committedEpoch < epoch) (hn : n < b.totalShards) (count : Nat) :
    ∃ next, after.reportShard epoch n (.flushed count count) = (next, .ok ()) ∧
      Reported b epoch (n + 1) next := by
  have hcard : (insert n (Finset.range n)).card = n + 1 := by simp
  have hcommitted : after.committedEpoch = b.committedEpoch := by
    rw [h.committedEpoch, if_neg (by omega)]
  rw [BarrierScheduler.reportShard, h.epochStates]
  simp only [hcard]
  by_cases hlast : b.totalShards ≤ n + 1
  · refine ⟨_, (if_pos hlast).trans (if_neg ?_), h.totalShards, h.currentEpoch, ?_, ?_⟩
    · simp only [setState, hcommitted]
      omega
    · simp [setState, Finset.range_add_one]
    · rw [if_pos (by omega)]
  · refine ⟨_, if_neg hlast, h.totalShards, h.currentEpoch, ?_, ?_⟩
    · simp [setState, Finset.range_add_one]
    · rw [if_neg (by omega), ← hcommitted]
      rfl

/-- All shards report without an error in the epoch of a new barrier. -/
theorem exists_reported (hb : b.Settled) (kind : BarrierKind) (counts : Nat → Nat) :
    ∀ n ≤ b.totalShards, ∃ after,
      (b.createBarrier kind).1.reportShards b.currentEpoch counts n = (after, .ok ()) ∧
        Reported (b.createBarrier kind).1 b.currentEpoch n after := by
  intro n
  induction n with
  | zero =>
    exact fun _ => ⟨_, rfl, rfl, rfl, Function.update_self .., by rw [if_neg (by omega)]⟩
  | succ n ih =>
    intro hn
    obtain ⟨after, hrun, hafter⟩ := ih (by omega)
    obtain ⟨next, hnext, hreported⟩ := hafter.reportShard hb hn (counts n)
    refine ⟨next, ?_, hreported⟩
    rw [reportShards, hrun]
    exact hnext

theorem Reported.settled {kind : BarrierKind} {n : Nat} (hb : b.Settled)
    (h : Reported (b.createBarrier kind).1 b.currentEpoch n after) : after.Settled := by
  have hcurrent : after.currentEpoch = b.currentEpoch + 1 := h.currentEpoch
  have hcommitted := h.committedEpoch
  unfold Settled at hb ⊢
  rw [hcommitted, hcurrent]
  split
  · omega
  · exact Nat.lt_succ_of_lt hb

end Nexora.EpochBarrier.BarrierScheduler

namespace Nexora.Stream
open Lib List EpochBarrier

/-! ### Manifests and their stores -/

structure CheckpointManifest where
  epoch : Nat
  createdAtMs : Nat
  offsets : Offsets
  shardsFlushed : Nat
  nodesFlushed : Nat

def manifestSeparator : List UInt8 := Json.ascii "---MANIFEST---"

/-- What is read of the text of a manifest. Nothing, if the separator is in it a second time: the
names of the offsets are in the text as they are. -/
def CheckpointManifest.decode (m : CheckpointManifest) : Option CheckpointManifest :=
  if ∃ row ∈ m.offsets.rows, manifestSeparator <:+: row.1 then none else some m

inductive CheckpointError where
  | flushFailed (error : String)
  | reportFailed (error : EpochError)
  | notMonotonic (epoch current : Nat)
  | storeFailed

/-- How the input and output of a store goes: as it should, or with an error before the manifest is
in its place, or after. -/
inductive SaveIo where
  | complete
  | failsBefore
  | failsAfter
deriving DecidableEq

inductive CheckpointStoreKind where
  | inMemory
  | file
  | rocksDb

/-- The manifests of the file and the RocksDB store by the epoch in the name of the file, or in the
key. -/
inductive CheckpointStore where
  | inMemory (manifest : Option CheckpointManifest)
  | file (files : Table Nat CheckpointManifest)
  | rocksDb (rows : Table Nat CheckpointManifest)

namespace CheckpointStore

def new : CheckpointStoreKind → CheckpointStore
  | .inMemory => inMemory none
  | .file => file Table.empty
  | .rocksDb => rocksDb Table.empty

def newest (read : Nat × CheckpointManifest → Option CheckpointManifest)
    (t : Table Nat CheckpointManifest) :
    Option CheckpointManifest :=
  t.rows.reverse.findSome? read

def readFile (row : Nat × CheckpointManifest) : Option CheckpointManifest :=
  row.2.decode.filter fun m => m.epoch = row.1

def loadLatest : CheckpointStore → Option CheckpointManifest
  | inMemory manifest => manifest
  | file files => newest readFile files
  | rocksDb rows => newest (fun row => row.2.decode) rows

def cleanupOldCheckpoints (keep : Nat) (files : Table Nat CheckpointManifest) :
    Table Nat CheckpointManifest :=
  ⟨files.rows.drop (files.rows.length - keep), files.sorted.drop⟩

/-- The guard of the in-memory and the RocksDB store. -/
def notMonotonic (m : CheckpointManifest) (existing : Option CheckpointManifest) :
    Option CheckpointError :=
  existing.bind fun e => if m.epoch ≤ e.epoch then some (.notMonotonic m.epoch e.epoch) else none

def saveManifest (m : CheckpointManifest) (io : SaveIo) :
    CheckpointStore → Except CheckpointError Unit × CheckpointStore
  | inMemory manifest =>
    match notMonotonic m manifest with
    | some error => (.error error, inMemory manifest)
    | none => (.ok (), inMemory (some m))
  | file files =>
    match io with
    | .complete => (.ok (), file (cleanupOldCheckpoints 2 (files.put m.epoch m)))
    | .failsBefore => (.error .storeFailed, file files)
    | .failsAfter => (.error .storeFailed, file (files.put m.epoch m))
  | rocksDb rows =>
    match io, notMonotonic m (rocksDb rows).loadLatest with
    | .failsBefore, _ => (.error .storeFailed, rocksDb rows)
    | _, some error => (.error error, rocksDb rows)
    | .complete, none => (.ok (), rocksDb (rows.put m.epoch m))
    | .failsAfter, none => (.error .storeFailed, rocksDb (rows.put m.epoch m))

def reopen : CheckpointStore → CheckpointStore
  | inMemory _ => inMemory none
  | store => store

def epochs : CheckpointStore → List Nat
  | inMemory manifest => (manifest.map CheckpointManifest.epoch).toList
  | file files => files.rows.map Prod.fst
  | rocksDb rows => rows.rows.map Prod.fst

def Reads (m : CheckpointManifest) : CheckpointStore → Prop
  | inMemory _ => True
  | _ => m.decode = some m

variable {m : CheckpointManifest} {t : Table Nat CheckpointManifest}

theorem newest_append {read : Nat × CheckpointManifest → Option CheckpointManifest}
    {rows : List (Nat × CheckpointManifest)} {row : Nat × CheckpointManifest}
    (ht : t.rows = rows ++ [row]) (hread : read row = some m) : newest read t = some m := by
  rw [newest, ht, reverse_append]
  exact findSome?_cons_of_isSome (by rw [hread]; rfl) |>.trans hread

theorem rows_put (h : ∀ epoch ∈ t.rows.map Prod.fst, epoch < m.epoch) :
    (t.put m.epoch m).rows = t.rows ++ [(m.epoch, m)] :=
  putRow_of_forall_lt (fun _ hrow => h _ (mem_map_of_mem hrow)) m

private theorem rows_cleanupOldCheckpoints (h : ∀ epoch ∈ t.rows.map Prod.fst, epoch < m.epoch) :
    (cleanupOldCheckpoints 2 (t.put m.epoch m)).rows = t.rows.drop (t.rows.length - 1) ++ [(m.epoch, m)] := by
  have hlength : t.rows.length + 1 - 2 = t.rows.length - 1 := by omega
  simp only [cleanupOldCheckpoints, rows_put h, length_append, length_singleton, hlength]
  exact drop_append_of_le_length (Nat.sub_le _ _)

theorem notMonotonic_eq_none {existing : Option CheckpointManifest}
    (h : ∀ e, existing = some e → e.epoch < m.epoch) : notMonotonic m existing = none := by
  cases existing with
  | none => rfl
  | some e => exact if_neg (not_le.mpr (h e rfl))

def Keyed : CheckpointStore → Prop
  | rocksDb rows => ∀ row ∈ rows.rows, row.2.epoch = row.1
  | _ => True

variable {store : CheckpointStore}

theorem keyed_saveManifest (m : CheckpointManifest) (io : SaveIo) (h : store.Keyed) :
    (store.saveManifest m io).2.Keyed := by
  cases store with
  | inMemory manifest => unfold saveManifest; dsimp only; split <;> trivial
  | file files => cases io <;> trivial
  | rocksDb rows =>
    have hput : ∀ row ∈ (rows.put m.epoch m).rows, row.2.epoch = row.1 := by
      intro row hrow
      rcases mem_of_mem_putRow hrow with rfl | hrow
      · rfl
      · exact h row hrow
    unfold saveManifest
    dsimp only
    split
    · exact h
    · exact h
    · exact hput
    · exact hput

private theorem lt_of_loadLatest_rocksDb {rows : Table Nat CheckpointManifest} {epoch : Nat}
    {e : CheckpointManifest} (hkeyed : (rocksDb rows).Keyed)
    (h : ∀ k ∈ (rocksDb rows).epochs, k < epoch) (he : (rocksDb rows).loadLatest = some e) :
    e.epoch < epoch := by
  obtain ⟨row, hrow, hdecode⟩ := exists_of_findSome?_eq_some he
  have hrow := mem_reverse.mp hrow
  have hrow2 : row.2 = e := by
    unfold CheckpointManifest.decode at hdecode
    split at hdecode
    · cases hdecode
    · exact Option.some.inj hdecode
  rw [← hrow2, hkeyed row hrow]
  exact h _ (mem_map_of_mem hrow)

theorem saveManifest_above (hkeyed : store.Keyed) (habove : ∀ epoch ∈ store.epochs, epoch < m.epoch)
    (hreads : store.Reads m) :
    (store.saveManifest m .complete).1 = .ok () ∧ (store.saveManifest m .complete).2.loadLatest = some m := by
  cases store with
  | inMemory manifest =>
    have hnone : notMonotonic m manifest = none := notMonotonic_eq_none fun e he => habove _ (by simp [epochs, he])
    simp [saveManifest, hnone, loadLatest]
  | file files =>
    have hread : readFile (m.epoch, m) = some m := by simp [readFile, show m.decode = some m from hreads]
    exact ⟨rfl, newest_append (rows_cleanupOldCheckpoints habove) hread⟩
  | rocksDb rows =>
    have hnone := notMonotonic_eq_none fun e he => lt_of_loadLatest_rocksDb hkeyed habove he
    simp only [saveManifest, hnone, true_and]
    exact newest_append (rows_put habove) hreads

private theorem saveManifest_failsBefore :
    store.saveManifest m .failsBefore = (.error .storeFailed, store) ∨
      store.saveManifest m .failsBefore = store.saveManifest m .complete := by
  cases store with
  | inMemory manifest => exact .inr rfl
  | file | rocksDb => exact .inl rfl

end CheckpointStore

/-! ### The coordinator -/

/-- What a call of `checkpoint` meets: the offsets, the time, the number of nodes that each shard
has flushed or the error, and the way the store takes it. -/
structure CheckpointCall where
  offsets : Offsets
  nowMs : Nat
  flush : Except String (Nat → Nat)
  io : SaveIo

structure CheckpointCoordinator where
  scheduler : BarrierScheduler
  store : CheckpointStore

namespace CheckpointCoordinator

def new (store : CheckpointStore) (totalShards : Nat) : CheckpointCoordinator :=
  ⟨.new totalShards, store⟩

def manifest (c : CheckpointCoordinator) (call : CheckpointCall) (counts : Nat → Nat) :
    CheckpointManifest where
  epoch := c.scheduler.currentEpoch
  createdAtMs := call.nowMs
  offsets := call.offsets
  shardsFlushed := c.scheduler.totalShards
  nodesFlushed := ((List.range c.scheduler.totalShards).map counts).sum

def checkpoint (c : CheckpointCoordinator) (call : CheckpointCall) :
    Except CheckpointError CheckpointManifest × CheckpointCoordinator :=
  let (opened, barrier) := c.scheduler.createBarrier .checkpoint
  match call.flush with
  | .error error => (.error (.flushFailed error), { c with scheduler := opened })
  | .ok counts =>
    match opened.reportShards barrier.epoch counts c.scheduler.totalShards with
    | (scheduler, .error error) => (.error (.reportFailed error), { c with scheduler })
    | (scheduler, .ok ()) =>
      match c.store.saveManifest (c.manifest call counts) call.io with
      | (.error error, store) => (.error error, ⟨scheduler, store⟩)
      | (.ok (), store) => (.ok (c.manifest call counts), ⟨scheduler, store⟩)

end CheckpointCoordinator

/-! ### Runs -/

inductive CheckpointEvent where
  | checkpoint (call : CheckpointCall)
  | restart (totalShards : Nat)

/-- The coordinator of the process, the manifest of the last call that returned `Ok`, and what the
last call of the process returned. -/
structure Checkpoints where
  coordinator : CheckpointCoordinator
  lastOk : Option CheckpointManifest := none
  returned : Option (Except CheckpointError CheckpointManifest) := none

namespace Checkpoints

def step (s : Checkpoints) : CheckpointEvent → Checkpoints
  | .checkpoint call =>
    match s.coordinator.checkpoint call with
    | (.ok m, coordinator) => ⟨coordinator, some m, some (.ok m)⟩
    | (.error error, coordinator) => ⟨coordinator, s.lastOk, some (.error error)⟩
  | .restart totalShards => ⟨.new s.coordinator.store.reopen totalShards, s.lastOk, none⟩

/-- The latest manifest is that of the last successful call, and no call was refused for its
epoch. -/
def Recent (s : Checkpoints) : Prop :=
  s.coordinator.store.loadLatest = s.lastOk ∧ ∀ epoch current, s.returned ≠ some (.error (.notMonotonic epoch current))

/-- A call that gets to the store has an epoch above all those in it, no error after its manifest is
in place, and names that the store can read again. A process is restarted over a store that keeps
what it has. -/
def InOrder (s : Checkpoints) : CheckpointEvent → Prop
  | .checkpoint call => ∀ counts, call.flush = .ok counts →
      (∀ epoch ∈ s.coordinator.store.epochs, epoch < s.coordinator.scheduler.currentEpoch) ∧
        s.coordinator.store.Reads (s.coordinator.manifest call counts) ∧ call.io ≠ .failsAfter
  | .restart _ => s.coordinator.store.reopen = s.coordinator.store

structure Sound (s : Checkpoints) : Prop where
  settled : s.coordinator.scheduler.Settled
  keyed : s.coordinator.store.Keyed
  recent : s.Recent

theorem sound_step {s : Checkpoints} (h : s.Sound) (event : CheckpointEvent)
    (hevent : s.InOrder event) : (s.step event).Sound := by
  obtain ⟨hsettled, hkeyed, hlatest, -⟩ := h
  cases event with
  | restart totalShards =>
    have hreopen : s.coordinator.store.reopen = s.coordinator.store := hevent
    simp only [step, hreopen]
    exact ⟨Nat.one_pos, hkeyed, hlatest, by rintro _ _ ⟨⟩⟩
  | checkpoint call =>
    simp only [step, CheckpointCoordinator.checkpoint]
    cases hflush : call.flush with
    | error error => exact ⟨Nat.lt_succ_of_lt hsettled, hkeyed, hlatest, by rintro _ _ ⟨⟩⟩
    | ok counts =>
      obtain ⟨habove, hreads, hio⟩ := hevent counts hflush
      obtain ⟨after, hrun, hafter⟩ :=
        BarrierScheduler.exists_reported hsettled .checkpoint counts _ le_rfl
      have hafter := hafter.settled hsettled
      have hsaved := CheckpointStore.saveManifest_above (m := s.coordinator.manifest call counts) hkeyed habove hreads
      have hafterKeyed := CheckpointStore.keyed_saveManifest (s.coordinator.manifest call counts) call.io hkeyed
      have hio : s.coordinator.store.saveManifest (s.coordinator.manifest call counts) call.io =
          (.error .storeFailed, s.coordinator.store) ∨
          s.coordinator.store.saveManifest (s.coordinator.manifest call counts) call.io =
            s.coordinator.store.saveManifest (s.coordinator.manifest call counts) .complete := by
        cases hcase : call.io with
        | complete => exact .inr rfl
        | failsBefore => exact CheckpointStore.saveManifest_failsBefore
        | failsAfter => exact absurd hcase hio
      simp only [BarrierScheduler.createBarrier] at hrun ⊢
      simp only [hrun]
      rcases hio with hio | hio
      · simp only [hio]
        exact ⟨hafter, hkeyed, hlatest, by rintro _ _ ⟨⟩⟩
      · rw [hio] at hafterKeyed
        rw [hio]
        generalize s.coordinator.store.saveManifest (s.coordinator.manifest call counts) .complete =
          saved at hsaved hafterKeyed
        obtain ⟨result, store⟩ := saved
        obtain ⟨rfl, hnewest⟩ := hsaved
        exact ⟨hafter, hafterKeyed, hnewest, by rintro _ _ ⟨⟩⟩

theorem sound_new (kind : CheckpointStoreKind) (totalShards : Nat) :
    (⟨.new (.new kind) totalShards, none, none⟩ : Checkpoints).Sound := by
  refine ⟨Nat.one_pos, ?_, ?_, nofun⟩
  · cases kind with
    | inMemory | file => trivial
    | rocksDb => exact fun _ hnone => absurd hnone not_mem_nil
  · cases kind <;> rfl

/-- **The latest manifest is that of the last checkpoint**, over every run of calls and restarts on
each of the stores, if no call comes with an epoch that the store already has or has passed. -/
theorem recent_of_inOrder (kind : CheckpointStoreKind) (totalShards : Nat)
    {events : List CheckpointEvent}
    (h : Along step InOrder ⟨.new (.new kind) totalShards, none, none⟩ events) :
    (run step ⟨.new (.new kind) totalShards, none, none⟩ events).Recent :=
  (@run_invariant _ _ step InOrder Sound (fun _ event hs hevent => sound_step hs event hevent) _ (sound_new kind totalShards) events h).recent

def plainCall (nowMs : Nat) : CheckpointCall := ⟨Table.empty, nowMs, .ok fun _ => 2, .complete⟩

/-- Over two shards a checkpoint succeeds, then the store and then a flush fails, and another one
succeeds. After a restart a flush fails. -/
def fiveCalls : List CheckpointEvent :=
  [.checkpoint (plainCall 10), .checkpoint { plainCall 20 with io := .failsBefore },
    .checkpoint { plainCall 30 with flush := .error "disk" }, .checkpoint (plainCall 40), .restart 2,
    .checkpoint { plainCall 50 with flush := .error "disk" }]

theorem recent_of_inOrder_fiveCalls :
    (run step ⟨.new (.new .rocksDb) 2, none, none⟩ fiveCalls).Recent := by
  refine recent_of_inOrder .rocksDb 2 ⟨?_, ?_, nofun, ?_, rfl, nofun, trivial⟩
  all_goals
    rintro _ ⟨⟩
    exact ⟨by decide, rfl, by decide⟩

/-- After a restart the file store takes the manifest of epoch 1 and removes it at once as the
oldest, the RocksDB store refuses it, and the in-memory store has nothing. -/
theorem not_recent_after_restart :
    let before :=
  [.checkpoint (plainCall 10), .checkpoint (plainCall 20), .checkpoint (plainCall 30), .restart 1]
    let after (kind : CheckpointStoreKind) (events : List CheckpointEvent) :=
      run step ⟨.new (.new kind) 1, none, none⟩ (before ++ events)
    (after .file [.checkpoint (plainCall 40)]).lastOk.map CheckpointManifest.createdAtMs = some 40 ∧
      (after .file [.checkpoint (plainCall 40)]).coordinator.store.loadLatest.map CheckpointManifest.createdAtMs = some 30 ∧
      (after .rocksDb [.checkpoint (plainCall 40)]).returned = some (.error (.notMonotonic 1 3)) ∧
      (after .inMemory []).lastOk.map CheckpointManifest.createdAtMs = some 30 ∧
      (after .inMemory []).coordinator.store.loadLatest.map CheckpointManifest.createdAtMs = none := by
  refine ⟨rfl, rfl, rfl, rfl, rfl⟩

end Checkpoints
end Nexora.Stream
