import Nexora.Graph.ShardRun

/-!
# Durability of acknowledged writes

The events behind a node's receipts are those it had stored when it last went to sleep and those of
its journal since. Whatever a crash leaves of the log has the journal of the node. Truncating the
log keeps this only for those other nodes that have an empty journal.
-/

namespace Nexora
open Lib List Option Function SleepStage NodeState WalOperation WriteAheadLog ShardState Nat

/-- What the past has left behind: the operations in the log and how many of them are synced, and
for each node the events it had stored when it last went to sleep and its store at that time. -/
structure History where
  ops : List WalOperation
  count : Nat
  stored : NexoraId → NodeEvents
  origin : NexoraId → NodeStore

def SleepStage.rank : SleepStage → Nat
  | .captured _ => 0
  | .journaled _ => 1
  | .stored _ => 2
  | .flushed _ => 3
  | .checkpointed => 4
  | .stopped => 5

def SleepStage.copy : SleepStage → Option NodeStateSnapshot
  | .captured snap => some snap
  | .journaled snap => some snap
  | _ => none

namespace ShardState
variable (S : Serde) (codec : SnapshotCodec) (cipher : Option Cipher)

/-! ### The invariant -/

def journalOf (task : Option NodeTask) : NodeEvents := task.elim [] NodeTask.journal

theorem journalOf_update {nodes : NexoraId → Option NodeTask} {qid : NexoraId} {task : NodeTask}
    (h : task.journal = journalOf (nodes qid)) (r : NexoraId) :
    journalOf (update nodes qid (some task) r) = journalOf (nodes r) := by
  by_cases hr : r = qid
  · subst hr
    rw [update_self, ← h]
    rfl
  · rw [update_of_ne hr]

def pendingEvents (pending : Option PendingCommit) : NodeEvents :=
  pending.elim [] fun c => c.draft.events

def keptEvents (pending : Option PendingCommit) (kept : Nat) : NodeEvents :=
  pending.elim [] fun c => if c.seq ≤ kept then c.draft.events else []

structure NodeInv (qid : NexoraId) (start : NodeState) (stored : NodeEvents) (origin : NodeStore)
    (task : Option NodeTask)
    (pending : Option PendingCommit) (acknowledged : NodeEvents) : Prop where
  receipts : acknowledged = stored ++ journalOf task
  wakes : WakesWith S codec qid origin (start.applyEvents stored)
  emits : (start.applyEvents stored).Emits (journalOf task ++ pendingEvents pending)
  admits : origin.Admits S qid [] (journalOf task ++ pendingEvents pending)
  state : pending = none → ∀ t, task = some t → t.state = (start.applyEvents stored).applyEvents (journalOf task)
  draft : ∀ c, pending = some c → task.isSome = true ∧
    c.draft.next = (start.applyEvents stored).applyEvents (journalOf task ++ c.draft.events)

/-- A node whose store does not let it wake, so that it has never been used. -/
structure Unused (qid : NexoraId) (origin : NodeStore) (task : Option NodeTask)
    (pending : Option PendingCommit)
    (acknowledged : NodeEvents) : Prop where
  task : task = none
  pending : pending = none
  receipts : acknowledged = []
  sleeps : ∀ now woken, wakeNode S codec origin qid now ≠ .ok woken

/-- The node that is being put to sleep: what was copied is still its state, and from the writing of
the snapshot on this is what it wakes with. -/
structure Sleeper (state : NodeState) (s : ShardState) (x : NexoraId) (stage : SleepStage) :
    Prop where
  idle : s.pending x = none
  task : ∃ task, s.nodes x = some task ∧ ∀ snap, stage.copy = some snap → snap = task.snapshotState
  snapshot : 2 ≤ stage.rank → ∃ time, Snapshotted codec x (journalOf (s.nodes x)) state time (s.persistor x)
  flushed : 3 ≤ stage.rank → s.unsynced = []

def Covered (s : ShardState) (qid : NexoraId) : Prop :=
  ∃ stage, s.sleeping = some (qid, stage) ∧ 4 ≤ stage.rank

structure Inv (start : NexoraId → NodeState) (h : History) (s : ShardState) : Prop where
  log : s.wal.Holds S cipher h.ops h.count
  always : s.wal.syncPolicy = .always → h.count = h.ops.length
  node : ∀ qid, NodeInv S codec qid (start qid) (h.stored qid) (h.origin qid) (s.nodes qid) (s.pending qid)
      (s.acknowledged qid) ∨
    Unused S codec qid (h.origin qid) (s.nodes qid) (s.pending qid) (s.acknowledged qid)
  logged : ∀ qid kept, h.count ≤ kept → kept ≤ h.ops.length →
    uncovered (h.ops.take kept) qid = journalOf (s.nodes qid) ++ keptEvents (s.pending qid) kept ∨
      s.Covered qid ∧ uncovered (h.ops.take kept) qid = []
  barrier : ∀ qid c, s.pending qid = some c → c.seq ≤ h.ops.length ∧
    (s.wal.syncPolicy = .always ∨ (s.wal.group.isSome = true ∧ c.request.awaitDurable = true ∧
      (c.seq ≤ s.wal.watermark → c.seq ≤ h.count)))
  unsynced : ∀ old ∈ s.unsynced, ∀ qid, PersistedFrom S qid (journalOf (s.nodes qid)) (h.origin qid) (old qid)
  current : ∀ qid, (∀ stage, s.sleeping = some (qid, stage) → stage.rank < 2) →
    PersistedFrom S qid (journalOf (s.nodes qid)) (h.origin qid) (s.persistor qid)
  sleeper : ∀ x stage, s.sleeping = some (x, stage) →
    Sleeper codec (((start x).applyEvents (h.stored x)).applyEvents (journalOf (s.nodes x))) s x stage

variable {S codec cipher} {start : NexoraId → NodeState}

/-! ### One node -/

theorem keptEvents_eq (pending : Option PendingCommit) (kept : Nat) :
    keptEvents pending kept = [] ∨ ∃ c, pending = some c ∧ keptEvents pending kept = c.draft.events := by
  cases pending with
  | none => exact .inl rfl
  | some c =>
    by_cases hkept : c.seq ≤ kept
    · exact .inr ⟨c, rfl, if_pos hkept⟩
    · exact .inl (if_neg hkept)

theorem keptEvents_isPrefix (pending : Option PendingCommit) (kept : Nat) :
    keptEvents pending kept <+: pendingEvents pending := by
  obtain hnil | ⟨c, rfl, hevents⟩ := keptEvents_eq pending kept
  · rw [hnil]
    exact nil_prefix
  · rw [hevents]
    exact prefix_rfl

theorem NodeInv.restores {qid : NexoraId} {first : NodeState} {stored : NodeEvents}
    {origin st : NodeStore} {task : Option NodeTask} {pending : Option PendingCommit}
    {acknowledged : NodeEvents}
    (hnode : NodeInv S codec qid first stored origin task pending acknowledged)
    (hst : PersistedFrom S qid (journalOf task) origin st) (kept : Nat) :
    ∃ state, Restores S codec qid st (journalOf task ++ keptEvents pending kept) state ∧
      (state = first.applyEvents acknowledged ∨
        ∃ c, pending = some c ∧ state = first.applyEvents (acknowledged ++ c.draft.events)) := by
  obtain ⟨rest, hrest⟩ := keptEvents_isPrefix pending kept
  have hwhole : journalOf task ++ keptEvents pending kept ++ rest = journalOf task ++ pendingEvents pending := by
    simp [hrest]
  have hadmits := hnode.admits.of_isPrefix ⟨rest, hwhole⟩
  have hemits := (emits_append.mp (hwhole ▸ hnode.emits)).1
  refine ⟨_, hst.restores (prefix_append _ _) hadmits hnode.wakes hemits, ?_⟩
  rw [← applyEvents_append, ← append_assoc, ← hnode.receipts]
  obtain hnil | ⟨c, hc, hevents⟩ := keptEvents_eq pending kept
  · rw [hnil, append_nil]
    exact Or.inl rfl
  · rw [hevents]
    exact .inr ⟨c, hc, rfl⟩

section Node
variable {qid : NexoraId} {first : NodeState} {stored : NodeEvents} {origin st : NodeStore}
    {acknowledged : NodeEvents}

theorem NodeInv.beginCommit {task : NodeTask}
    (hnode : NodeInv S codec qid first stored origin (some task) none acknowledged)
    (hst : PersistedFrom S qid task.journal origin st) {request : MutationRequest}
    (hadmitted : st.Admits S qid task.journal (task.draft request.operations request.eventTime).events)
    (seq : Nat) (receipt : CommitReceipt) :
    NodeInv S codec qid first stored origin (some (task.drafted (task.draft request.operations request.eventTime)))
      (some ⟨seq, task.draft request.operations request.eventTime, receipt, request⟩) acknowledged := by
  obtain ⟨hemits, hnext⟩ := task.draft_sourced request.operations request.eventTime
  have hstate : task.state = (first.applyEvents stored).applyEvents task.journal :=
    hnode.state rfl task rfl
  have hjournal : (first.applyEvents stored).Emits (task.journal ++ []) := hnode.emits
  have hadmits : origin.Admits S qid [] (task.journal ++ []) := hnode.admits
  rw [append_nil] at hjournal hadmits
  refine ⟨hnode.receipts, hnode.wakes, emits_append.mpr ⟨hjournal, hstate ▸ hemits⟩,
    hadmits.append hst hadmitted, fun hnone => (nomatch hnone), fun c hc => ?_⟩
  cases hc
  refine ⟨rfl, hnext.symm.trans ?_⟩
  rw [hstate, ← applyEvents_append]
  rfl

theorem NodeInv.endCommit {task : Option NodeTask} {c : PendingCommit}
    (hnode : NodeInv S codec qid first stored origin task (some c) acknowledged) :
    NodeInv S codec qid first stored origin
        (task.map fun task => (task.install c.draft).rememberReceipt c.request.requestId c.receipt) none
        (acknowledged ++ c.draft.events) ∧
      journalOf (task.map fun task => (task.install c.draft).rememberReceipt c.request.requestId c.receipt) =
        journalOf task ++ c.draft.events := by
  obtain ⟨hsome, hnext⟩ := hnode.draft c rfl
  obtain ⟨t, rfl⟩ := isSome_iff_exists.mp hsome
  refine ⟨⟨?_, hnode.wakes, ?_, ?_, ?_, fun _ hc => (nomatch hc)⟩, rfl⟩
  · rw [hnode.receipts, append_assoc]
    rfl
  · exact (append_nil (t.journal ++ c.draft.events)).symm ▸ hnode.emits
  · exact (append_nil (t.journal ++ c.draft.events)).symm ▸ hnode.admits
  · rintro - t' ht'
    cases ht'
    exact hnext

end Node

theorem uncovered_take_append {operation : WalOperation} {qid : NexoraId}
    (hne : operation.nexoraId ≠ some qid) {ops : List WalOperation} {kept : Nat}
    (hkept : kept ≤ ops.length + 1) :
    uncovered ((ops ++ [operation]).take kept) qid = uncovered (ops.take (min kept ops.length)) qid := by
  by_cases hle : kept ≤ ops.length
  · rw [take_append_of_le_length hle, min_eq_left hle]
  · have hall : kept = (ops ++ [operation]).length := by
      rw [length_append, length_singleton]
      omega
    rw [hall, take_length, uncovered_append_of_ne hne, length_append, min_eq_right (le_add_right _ _),
      take_length]

/-! ### What a crash leaves -/

section
variable {h : History} {s : ShardState} (hinv : s.Inv S codec cipher start h)
include hinv
variable {qid : NexoraId}

theorem Inv.node_of_task {task : NodeTask} (hnode : s.nodes qid = some task) :
    NodeInv S codec qid (start qid) (h.stored qid) (h.origin qid) (some task) (s.pending qid)
    (s.acknowledged qid) := by
  rw [← hnode]
  refine (hinv.node qid).resolve_right fun hunused => ?_
  rw [hunused.task] at hnode
  cases hnode

variable {c : PendingCommit}

theorem Inv.node_of_pending (hc : s.pending qid = some c) :
    NodeInv S codec qid (start qid) (h.stored qid) (h.origin qid) (s.nodes qid) (some c)
    (s.acknowledged qid) := by
  rw [← hc]
  refine (hinv.node qid).resolve_right fun hunused => ?_
  rw [hunused.pending] at hc
  cases hc

variable {kept : Nat} {wal : WriteAheadLog} {task : NodeTask} {request : MutationRequest}

theorem Inv.restores {survivor : Persistor} (hsurvivor : survivor ∈ s.persistor :: s.unsynced)
    (hcount : h.count ≤ kept) (hkept : kept ≤ h.ops.length)
    (hnode : NodeInv S codec qid (start qid) (h.stored qid) (h.origin qid) (s.nodes qid) (s.pending qid)
      (s.acknowledged qid)) :
    ∃ state, Restores S codec qid (survivor qid) (uncovered (h.ops.take kept) qid) state ∧
      (state = (start qid).applyEvents (s.acknowledged qid) ∨
        ∃ c, s.pending qid = some c ∧ state = (start qid).applyEvents (s.acknowledged qid ++ c.draft.events)) := by
  by_cases hsnapshot :
    survivor = s.persistor ∧ ∃ stage, s.sleeping = some (qid, stage) ∧ 2 ≤ stage.rank
  · -- The snapshot has the journal, whether or not the log still has it.
    obtain ⟨rfl, stage, hsleeping, hrank⟩ := hsnapshot
    have hsleeper := hinv.sleeper qid stage hsleeping
    obtain ⟨time, hstored⟩ := hsleeper.snapshot hrank
    have hstate : ((start qid).applyEvents (h.stored qid)).applyEvents (journalOf (s.nodes qid)) =
        (start qid).applyEvents (s.acknowledged qid) := by
      rw [← applyEvents_append, ← hnode.receipts]
    refine ⟨_, ?_, .inl hstate⟩
    obtain hlogged | ⟨-, hlogged⟩ := hinv.logged qid kept hcount hkept
    · rw [hsleeper.idle, keptEvents, elim_none, append_nil] at hlogged
      rw [hlogged]
      exact (hstored.restores S).1
    · rw [hlogged]
      exact (hstored.restores S).2
  · have hpersisted : PersistedFrom S qid (journalOf (s.nodes qid)) (h.origin qid) (survivor qid) := by
      obtain rfl | hold := mem_cons.mp hsurvivor
      · refine hinv.current qid fun stage hsleeping => ?_
        by_contra hrank
        exact hsnapshot ⟨rfl, stage, hsleeping, not_lt.mp hrank⟩
      · exact hinv.unsynced survivor hold qid
    obtain hlogged | ⟨⟨stage, hsleeping, hrank⟩, -⟩ := hinv.logged qid kept hcount hkept
    · rw [hlogged]
      exact hnode.restores hpersisted kept
    · -- A checkpoint is written behind the flush, so the snapshot is in every version that may survive.
      have hflushed := (hinv.sleeper qid stage hsleeping).flushed (by omega)
      rw [hflushed, mem_singleton] at hsurvivor
      exact absurd ⟨hsurvivor, stage, hsleeping, by omega⟩ hsnapshot

theorem Inv.durable (policy : WalSyncPolicy) : s.Durable S codec cipher policy start := by
  intro cut survivor hsurvivor qid hreceipts now
  obtain ⟨kept, tail, hcount, hkept, htail, hfile⟩ := hinv.log.take_file cut
  have hreplays : ∀ r, ∃ st, replayStore S (survivor r) r (uncovered (h.ops.take kept) r) = .ok st := by
    intro r
    obtain hnode | hunused := hinv.node r
    · obtain ⟨_, ⟨st, hreplay, -⟩, -⟩ := hinv.restores hsurvivor hcount hkept hnode
      exact ⟨st, hreplay⟩
    · have hnil : uncovered (h.ops.take kept) r = [] := by
        obtain hlogged | ⟨-, hlogged⟩ := hinv.logged r kept hcount hkept
        · rw [hlogged, hunused.task, hunused.pending]
          rfl
        · exact hlogged
      exact ⟨survivor r, by rw [hnil]; rfl⟩
  choose target hreplay using hreplays
  have hreadable : ∀ record ∈ recordsFrom 1 (h.ops.take kept), Readable S cipher s.wal.fileGeneration record := by
    intro record hrecord
    rw [← take_recordsFrom] at hrecord
    exact hinv.log.readable record (mem_of_mem_take hrecord)
  have hnode := (hinv.node qid).resolve_right fun hunused => hreceipts hunused.receipts
  obtain ⟨state, ⟨st, hst, hwakes⟩, hstate⟩ := hinv.restores hsurvivor hcount hkept hnode
  cases hst.symm.trans (hreplay qid)
  obtain ⟨task, hwake, htask⟩ := hwakes now
  refine ⟨task, ?_, htask ▸ hstate⟩
  rw [hfile, recoverNode_frames codec policy hreadable htail hreplay qid now]
  exact hwake

/-! ### The log goes on -/

theorem Inv.barrier_of {count : Nat}
    (hpolicy : wal.syncPolicy = s.wal.syncPolicy) (hgroup : wal.group.isSome = s.wal.group.isSome)
    (hcount : h.ops.length ≤ count ∨ count = h.count ∧ wal.watermark = s.wal.watermark)
    (hc : s.pending qid = some c) :
    wal.syncPolicy = .always ∨ (wal.group.isSome = true ∧ c.request.awaitDurable = true ∧
      (c.seq ≤ wal.watermark → c.seq ≤ count)) := by
  obtain ⟨hseq, hbarrier⟩ := hinv.barrier qid c hc
  rw [hpolicy, hgroup]
  refine hbarrier.imp_right fun ⟨hsome, hawait, hmark⟩ => ⟨hsome, hawait, fun hle => ?_⟩
  obtain hcount | ⟨rfl, hsame⟩ := hcount
  · omega
  · exact hmark (hsame ▸ hle)

theorem Inv.setWal {count : Nat} (hlog : wal.Holds S cipher h.ops count)
    (hpolicy : wal.syncPolicy = s.wal.syncPolicy) (hgroup : wal.group.isSome = s.wal.group.isSome)
    (hcount : count = h.ops.length ∨ count = h.count ∧ wal.watermark = s.wal.watermark) :
    Inv S codec cipher start { h with count := count } { s with wal := wal } where
  log := hlog
  always := fun halways => by
    obtain hcount | ⟨hcount, -⟩ := hcount
    · exact hcount
    · exact hcount.trans (hinv.always (hpolicy ▸ halways))
  node := hinv.node
  logged := fun qid kept hle hkept => by
    have hold := hinv.log.count_le
    have hbefore : h.count ≤ kept := by
      obtain hcount | ⟨hcount, -⟩ := hcount <;> simp only at hle <;> omega
    exact hinv.logged qid kept hbefore hkept
  barrier := fun qid c hc =>
    ⟨(hinv.barrier qid c hc).1, hinv.barrier_of hpolicy hgroup (hcount.imp_left ge_of_eq) hc⟩
  unsynced := hinv.unsynced
  current := hinv.current
  sleeper := fun x stage hsleeping => by
    obtain ⟨hidle, htask, hsnapshot, hflushed⟩ := hinv.sleeper x stage hsleeping
    exact ⟨hidle, htask, hsnapshot, hflushed⟩

theorem Inv.sync :
    Inv S codec cipher start { h with count := h.ops.length } { s with wal := s.wal.sync } :=
  hinv.setWal hinv.log.sync rfl rfl (.inl rfl)

theorem Inv.flusherTick :
    ∃ h', Inv S codec cipher start h' { s with wal := s.wal.flusherTick } := by
  obtain hlog | hsame := hinv.log.flusherTick
  · refine ⟨_, hinv.setWal hlog ?_ ?_ (.inl rfl)⟩
    · unfold WriteAheadLog.flusherTick
      split <;> rfl
    · unfold WriteAheadLog.flusherTick
      split
      · exact isSome_map
      · rfl
  · exact ⟨h, by rw [hsame]; exact hinv⟩

theorem Inv.logged_append {operation : WalOperation} (hne : operation.nexoraId ≠ some qid)
    (hcount : h.count ≤ kept) (hkept : kept ≤ h.ops.length + 1) :
    uncovered ((h.ops ++ [operation]).take kept) qid = journalOf (s.nodes qid) ++ keptEvents (s.pending qid) kept ∨
      s.Covered qid ∧ uncovered ((h.ops ++ [operation]).take kept) qid = [] := by
  have hold := hinv.log.count_le
  have hsame : keptEvents (s.pending qid) kept = keptEvents (s.pending qid) (min kept h.ops.length) := by
    cases hpending : s.pending qid with
    | none => rfl
    | some c =>
      have hseq := (hinv.barrier qid c hpending).1
      simp [keptEvents, hseq]
  rw [uncovered_take_append hne hkept, hsame]
  exact hinv.logged qid _ (le_min hcount hold) (min_le_right _ _)

/-! ### Commits -/

theorem Inv.logged_nodeEvents (hpending : s.pending qid = none)
    (hawake : ∀ x stage, s.sleeping = some (x, stage) → x ≠ qid) (hseq : c.seq = h.ops.length + 1)
    (hcount : h.count ≤ kept) (hkept : kept ≤ h.ops.length + 1) :
    uncovered ((h.ops ++ [nodeEvents qid c.draft.events]).take kept) qid =
      journalOf (s.nodes qid) ++ keptEvents (some c) kept := by
  have hbefore : ∀ n, h.count ≤ n → n ≤ h.ops.length → uncovered (h.ops.take n) qid = journalOf (s.nodes qid) := by
    intro n hn hle
    obtain hlogged | ⟨⟨stage, hsleeping, -⟩, -⟩ := hinv.logged qid n hn hle
    · rw [hlogged, hpending]
      exact append_nil _
    · exact absurd rfl (hawake qid stage hsleeping)
  by_cases hle : kept ≤ h.ops.length
  · have hnone : keptEvents (some c) kept = [] := if_neg (by omega)
    rw [take_append_of_le_length hle, hbefore kept hcount hle, hnone, append_nil]
  · have hsome : keptEvents (some c) kept = c.draft.events := if_pos (by omega)
    have hall : kept = (h.ops ++ [nodeEvents qid c.draft.events]).length := by
      rw [length_append, length_singleton]
      omega
    have hops := hbefore h.ops.length hinv.log.count_le le_rfl
    rw [take_length] at hops
    rw [hsome, hall, take_length, uncovered_append_nodeEvents, hops]

theorem Inv.beginCommit (hidle : s.idleTask qid = some task)
    (hok : s.CommitOk S cipher qid task.journal request (task.draft request.operations request.eventTime).events) :
    ∃ h', (s.beginCommit S cipher qid task request).Inv S codec cipher start h' := by
  obtain ⟨hpending, hnode⟩ := idleTask_eq_some hidle
  set d := task.draft request.operations request.eventTime with hd
  obtain ⟨count, hlog, hcount⟩ := hinv.log.append hok.readable
  obtain ⟨hpolicy, hgroup⟩ := @append_syncPolicy S cipher s.wal (.nodeEvents qid d.events)
  set wal := (s.wal.append S cipher (.nodeEvents qid d.events)).1 with hwal
  set c : PendingCommit := ⟨s.wal.nextSeq, d, task.receipt d, request⟩ with hc
  have hstate : s.beginCommit S cipher qid task request =
      { s with wal := wal.durableReceiver, nodes := update s.nodes qid (some (task.drafted d)),
               pending := update s.pending qid (some c) } := rfl
  have hlength : (h.ops ++ [nodeEvents qid d.events]).length = h.ops.length + 1 := by
    simp
  have hseq : c.seq = h.ops.length + 1 := hinv.log.nextSeq
  have hold := hinv.log.count_le
  have hcount' : h.count ≤ count := by
    obtain rfl | ⟨rfl, -⟩ := hcount <;> omega
  have hjournal : ∀ r, journalOf (update s.nodes qid (some (task.drafted d)) r) = journalOf (s.nodes r) := by
    apply journalOf_update
    rw [hnode]
    rfl
  have hcurrent : PersistedFrom S qid task.journal (h.origin qid) (s.persistor qid) := by
    have hrank := hinv.current qid fun stage hsleeping => absurd rfl (hok.awake qid stage hsleeping)
    rwa [hnode] at hrank
  rw [hstate]
  refine ⟨{ h with ops := h.ops ++ [.nodeEvents qid d.events], count := count }, hlog.setGroup _, fun halways => ?_,
    fun r => ?_, fun r kept hle hkept => ?_, fun r c' hc' => ?_, fun old hmem r => ?_,
      fun r hr => ?_, fun x stage hx => ?_⟩
  · obtain hcount | ⟨-, -, hnot, -⟩ := hcount
    · exact hcount.trans hlength.symm
    · exact absurd (hpolicy ▸ halways) hnot
  · by_cases hr : r = qid
    · subst hr
      simp only [update_self]
      have hbefore := hinv.node_of_task hnode
      rw [hpending] at hbefore
      exact .inl (hbefore.beginCommit hcurrent hok.admitted _ _)
    · simp only [update_of_ne hr]
      exact hinv.node r
  · simp only [hjournal]
    simp only [hlength] at hkept
    by_cases hr : r = qid
    · subst hr
      simp only [update_self]
      exact Or.inl (hinv.logged_nodeEvents hpending hok.awake hseq (le_trans hcount' hle) hkept)
    · simp only [update_of_ne hr]
      have hne : (nodeEvents qid d.events).nexoraId ≠ some r := fun heq => hr (some.inj heq).symm
      exact hinv.logged_append hne (le_trans hcount' hle) hkept
  · simp only [hlength]
    by_cases hr : r = qid
    · subst hr
      simp only [update_self, some.injEq] at hc'
      subst hc'
      refine ⟨hseq.le, hok.waits.imp (fun halways => hpolicy.trans halways) fun ⟨hsome, hawait, hnumber⟩ => ?_⟩
      refine ⟨isSome_map.trans (hgroup.trans hsome), hawait, fun hmark => ?_⟩
      rw [watermark_durableReceiver] at hmark
      obtain hcount | ⟨-, hsame, -, hbuffered⟩ := hcount
      · exact hseq.trans hcount.symm |>.le
      · rw [hsame] at hmark
        obtain hnumber | hinline := hnumber
        · exact absurd (lt_of_le_of_lt hmark hnumber) (lt_irrefl _)
        · exact absurd hinline (by rw [hbuffered]; exact Bool.false_ne_true)
    · simp only [update_of_ne hr] at hc'
      refine ⟨le_succ_of_le (hinv.barrier r c' hc').1, hinv.barrier_of ?_ ?_ ?_ hc'⟩
      · exact hpolicy
      · exact isSome_map.trans hgroup
      · rw [watermark_durableReceiver]
        exact hcount.imp (fun heq => by omega) fun ⟨hsame, hmark, _⟩ => ⟨hsame, hmark⟩
  · rw [hjournal]
    exact hinv.unsynced old hmem r
  · rw [hjournal]
    exact hinv.current r hr
  · have hne := hok.awake x stage hx
    obtain ⟨hidle, htask, hsnapshot, hflushed⟩ := hinv.sleeper x stage hx
    refine ⟨?_, ?_, ?_, hflushed⟩
    · simpa only [update_of_ne hne] using hidle
    · simpa only [update_of_ne hne] using htask
    · simpa only [hjournal] using hsnapshot

theorem Inv.endCommit (hc : s.pending qid = some c) (hsynced : c.seq ≤ h.count) :
    (s.endCommit qid c).Inv S codec cipher start h := by
  obtain ⟨hafter, hjournal⟩ := (hinv.node_of_pending hc).endCommit
  set tasks := update s.nodes qid ((s.nodes qid).map fun task =>
    (task.install c.draft).rememberReceipt c.request.requestId c.receipt) with htasks
  have hself : journalOf (tasks qid) = journalOf (s.nodes qid) ++ c.draft.events := by
    simp [htasks, hjournal]
  have hbegins : ∀ r, journalOf (s.nodes r) <+: journalOf (tasks r) := by
    intro r
    by_cases hr : r = qid
    · subst hr
      rw [hself]
      exact prefix_append _ _
    · rw [htasks, update_of_ne hr]
  refine ⟨hinv.log.setGroup _, hinv.always, fun r => ?_, fun r kept hle hkept => ?_, fun r c' hc' => ?_,
    fun old hmem r => (hinv.unsynced old hmem r).mono (hbegins r), fun r hr => (hinv.current r hr).mono (hbegins r),
    fun x stage hx => ?_⟩
  · by_cases hr : r = qid
    · subst hr
      simp only [endCommit, update_self]
      exact Or.inl hafter
    · simp only [ShardState.endCommit, update_of_ne hr]
      exact hinv.node r
  · by_cases hr : r = qid
    · subst hr
      have hkeptEvents : keptEvents (some c) kept = c.draft.events := if_pos (le_trans hsynced hle)
      have hlogged := hinv.logged r kept hle hkept
      rw [hc, hkeptEvents, ← hself] at hlogged
      simp only [endCommit, update_self, keptEvents, elim_none, append_nil]
      rw [htasks, update_self] at hlogged
      exact hlogged
    · simp only [ShardState.endCommit, update_of_ne hr]
      exact hinv.logged r kept hle hkept
  · have hr : r ≠ qid := by
      rintro rfl
      simp only [endCommit, update_self] at hc'
      cases hc'
    simp only [ShardState.endCommit, update_of_ne hr] at hc'
    refine ⟨(hinv.barrier r c' hc').1, hinv.barrier_of ?_ ?_ (.inr ⟨rfl, ?_⟩) hc'⟩
    · rfl
    · exact isSome_map
    · exact s.wal.watermark_unsubscribe
  · obtain ⟨hidle, htask, hsnapshot, hflushed⟩ := hinv.sleeper x stage hx
    have hne : x ≠ qid := by
      rintro rfl
      rw [hc] at hidle
      cases hidle
    simp only [ShardState.endCommit]
    refine ⟨?_, ?_, ?_, hflushed⟩
    · simpa only [update_of_ne hne] using hidle
    · simpa only [update_of_ne hne] using htask
    · simpa only [update_of_ne hne] using hsnapshot

theorem Inv.seq_le_count (hc : s.pending qid = some c) (hpasses : s.passes c = true) :
    c.seq ≤ h.count := by
  obtain ⟨hseq, halways | ⟨hsome, hawait, hmark⟩⟩ := hinv.barrier qid c hc
  · rw [hinv.always halways]
    exact hseq
  · refine hmark ?_
    simpa [passes, hawait, isNone_eq_false_iff.mpr hsome] using hpasses

theorem Inv.finish (qid : NexoraId) (flusherGone : Bool) :
    ∃ h', (s.step S codec cipher (.finish qid flusherGone)).Inv S codec cipher start h' := by
  obtain hsame | ⟨c, hc, ⟨hpasses, hend⟩ | hend⟩ := s.step_finish_cases qid flusherGone
  · exact ⟨h, by rw [hsame]; exact hinv⟩
  · exact ⟨h, by rw [hend]; exact hinv.endCommit hc (hinv.seq_le_count hc hpasses)⟩
  · exact ⟨_, by rw [hend]; exact hinv.sync.endCommit hc (hinv.barrier qid c hc).1⟩

/-! ### Waking and answering again -/

theorem Inv.setTask (hnode : NodeInv S codec qid (start qid) (h.stored qid) (h.origin qid) (s.nodes qid) (s.pending qid)
      (s.acknowledged qid))
    (hjournal : task.journal = journalOf (s.nodes qid)) (hpending : s.pending qid = none)
    (hstate : task.state = ((start qid).applyEvents (h.stored qid)).applyEvents (journalOf (s.nodes qid)))
    (hsleeper : ∀ stage, s.sleeping = some (qid, stage) →
      ∀ old, s.nodes qid = some old → old.snapshotState = task.snapshotState) :
    Inv S codec cipher start h { s with nodes := update s.nodes qid (some task) } := by
  have hjournals : ∀ r, journalOf (update s.nodes qid (some task) r) = journalOf (s.nodes r) :=
    journalOf_update hjournal
  refine ⟨hinv.log, hinv.always, fun r => ?_, fun r kept hle hkept => ?_, hinv.barrier, fun old hmem r => ?_,
    fun r hr => ?_, fun x stage hx => ?_⟩
  · by_cases hr : r = qid
    · subst hr
      obtain ⟨hreceipts, hwakes, hemits, hadmits, -, -⟩ := hnode
      rw [← hjournals r] at hreceipts hemits hadmits
      refine .inl ⟨hreceipts, hwakes, hemits, hadmits, fun _ t ht => ?_, fun c hc => ?_⟩
      · simp only [update_self, some.injEq] at ht
        rw [← ht, hjournals]
        exact hstate
      · rw [hpending] at hc
        cases hc
    · simp only [update_of_ne hr]
      exact hinv.node r
  · simp only [hjournals]
    exact hinv.logged r kept hle hkept
  · rw [hjournals]
    exact hinv.unsynced old hmem r
  · rw [hjournals]
    exact hinv.current r hr
  · obtain ⟨hidle, ⟨old, hold, hcopy⟩, hsnapshot, hflushed⟩ := hinv.sleeper x stage hx
    refine ⟨hidle, ?_, by simpa only [hjournals] using hsnapshot, hflushed⟩
    by_cases hxq : x = qid
    · subst hxq
      exact ⟨task, update_self _ _ _, fun snap hsnap => (hcopy snap hsnap).trans (hsleeper stage hx old hold)⟩
    · exact ⟨old, by simpa only [update_of_ne hxq] using hold, hcopy⟩

theorem Inv.wake (qid : NexoraId) (now : EventTime) :
    (s.step S codec cipher (.wake qid now)).Inv S codec cipher start h := by
  obtain hsame | ⟨task, hnone, hsleeping, hwake, hstep⟩ := @step_wake_cases S codec cipher s qid now
  · rw [hsame]
    exact hinv
  · have hjournal : journalOf (s.nodes qid) = [] := by
      rw [hnone]
      rfl
    have hcurrent := hinv.current qid fun stage hx => by rw [hsleeping] at hx; cases hx
    rw [hjournal] at hcurrent
    rw [hcurrent.eq_of_nil] at hwake
    have hnode := (hinv.node qid).resolve_right fun hunused => hunused.sleeps now task hwake
    have hpending : s.pending qid = none := by
      cases hc : s.pending qid with
      | none => rfl
      | some c =>
        have hsome := (hnode.draft c hc).1
        rw [hnone] at hsome
        cases hsome
    obtain ⟨_, _, _, -, -, -, htask⟩ := wakeNode_eq_ok hwake
    rw [hstep]
    refine hinv.setTask hnode ?_ hpending ?_ fun stage hx => ?_
    · rw [hjournal, htask]
      rfl
    · rw [hjournal]
      exact hnode.wakes.state_eq hwake
    · rw [hsleeping] at hx
      cases hx

theorem Inv.mutate (hok : s.StepOk S codec cipher (.mutate qid request)) :
    ∃ h', (s.step S codec cipher (.mutate qid request)).Inv S codec cipher start h' := by
  cases hidle : s.idleTask qid with
  | none => exact ⟨h, by simpa only [step, hidle] using hinv⟩
  | some task =>
    obtain ⟨hpending, hnode⟩ := idleTask_eq_some hidle
    cases hfind : task.findReceipt request.requestId with
    | none =>
      simp only [step, hidle, hfind]
      exact hinv.beginCommit hidle (hok task hidle hfind)
    | some entry =>
      simp only [step, hidle, hfind]
      have hjournal : journalOf (s.nodes qid) = task.journal := by
        rw [hnode]
        rfl
      have hbefore := hinv.node_of_task hnode
      refine ⟨h, hinv.setTask (hnode ▸ hbefore) hjournal.symm hpending ?_ fun _ _ old hold => ?_⟩
      · rw [hnode]
        exact hbefore.state hpending task rfl
      · rw [hnode] at hold
        cases hold
        rfl

/-! ### Sleeping -/

section
variable (hrank : ∀ x stage, s.sleeping = some (x, stage) → stage.rank < 2)
include hrank

theorem Inv.persisted : ∀ old ∈ s.persistor :: s.unsynced, ∀ qid,
      PersistedFrom S qid (journalOf (s.nodes qid)) (h.origin qid) (old qid) := by
  intro old hold qid
  obtain rfl | hold := mem_cons.mp hold
  · exact hinv.current qid fun stage => hrank qid stage
  · exact hinv.unsynced old hold qid

theorem Inv.setSleeping {sleeping : Option (NexoraId × SleepStage)}
    (hsleeper : ∀ x stage, sleeping = some (x, stage) → stage.rank = 0 ∧ s.pending x = none ∧
      ∃ task, s.nodes x = some task ∧ ∀ snap, stage.copy = some snap → snap = task.snapshotState) :
    Inv S codec cipher start h { s with sleeping := sleeping } where
  log := hinv.log
  always := hinv.always
  node := hinv.node
  logged := fun qid kept hle hkept => by
    refine (hinv.logged qid kept hle hkept).imp_right fun ⟨⟨stage, hx, hcovered⟩, _⟩ => ?_
    have hlt := hrank qid stage hx
    omega
  barrier := hinv.barrier
  unsynced := hinv.unsynced
  current := fun qid _ => hinv.current qid fun stage => hrank qid stage
  sleeper := fun x stage hx => by
    obtain ⟨hzero, hidle, htask⟩ := hsleeper x stage hx
    exact ⟨hidle, htask, fun htwo => by omega, fun hthree => by omega⟩

end

theorem Inv.sleep (qid : NexoraId) :
    (s.step S codec cipher (.sleep qid)).Inv S codec cipher start h := by
  obtain hsame | ⟨task, hsleeping, hidle, hstep⟩ := @step_sleep_cases S codec cipher s qid
  · rw [hsame]
    exact hinv
  · obtain ⟨hpending, hnode⟩ := idleTask_eq_some hidle
    rw [hstep]
    refine hinv.setSleeping (fun x stage hx => ?_) fun x stage hx => ?_
    · rw [hsleeping] at hx
      cases hx
    · cases hx
      refine ⟨rfl, hpending, task, hnode, fun snap hsnap => ?_⟩
      cases hsnap
      rfl

section Stages
variable {x : NexoraId}
variable {snap : NodeStateSnapshot} {st : NodeStore} {time : EventTime}

theorem Inv.journaled (hx : s.sleeping = some (x, .captured snap))
    (hpersist : persistJournal S (s.persistor x) x snap = .ok st) :
    Inv S codec cipher start h
      { s.writePersistor (update s.persistor x st) with sleeping := some (x, .journaled snap) } := by
  have hrank : ∀ y stage, s.sleeping = some (y, stage) → stage.rank < 2 := by
    intro y stage hy
    cases hx.symm.trans hy
    exact zero_lt_two
  obtain ⟨hidle, ⟨task, hnode, hcopy⟩, -, -⟩ := hinv.sleeper x _ hx
  have hbegins : snap.journal <+: journalOf (s.nodes x) := by
    rw [hcopy snap rfl, hnode]
    exact prefix_rfl
  refine ⟨hinv.log, hinv.always, hinv.node, fun qid kept hle hkept => ?_, hinv.barrier, hinv.persisted hrank,
    fun qid _ => ?_, fun y stage hy => ?_⟩
  · refine (hinv.logged qid kept hle hkept).imp_right fun ⟨⟨stage, hy, hcovered⟩, _⟩ => ?_
    have hlt := hrank qid stage hy
    omega
  · have hcurrent := hinv.current qid fun stage => hrank qid stage
    by_cases hqid : qid = x
    · subst hqid
      simp only [writePersistor, update_self]
      exact hcurrent.persistJournal hbegins hpersist
    · simp only [writePersistor, update_of_ne hqid]
      exact hcurrent
  · cases hy
    exact ⟨hidle, ⟨task, hnode, fun snap' hsnap' => hcopy snap' hsnap'⟩,
      fun htwo => absurd htwo (by simp [rank]), fun hthree => absurd hthree (by simp [rank])⟩

theorem Inv.stored (hx : s.sleeping = some (x, .journaled snap)) {now : EventTime}
    (hok : s.SleepOk S codec cipher x now (.journaled snap))
    (hpersist : persistState codec (s.persistor x) x snap now = .ok st) :
    Inv S codec cipher start h
      { s.writePersistor (update s.persistor x st) with sleeping := some (x, .stored (snap.time now)) } := by
  have hrank : ∀ y stage, s.sleeping = some (y, stage) → stage.rank < 2 := by
    intro y stage hy
    cases hx.symm.trans hy
    exact one_lt_two
  obtain ⟨hidle, ⟨task, hnode, hcopy⟩, -, -⟩ := hinv.sleeper x _ hx
  have hsnap : snap = task.snapshotState := hcopy snap rfl
  have hjournal : snap.journal = journalOf (s.nodes x) := by
    rw [hsnap, hnode]
    rfl
  have hstate : snap.state = ((start x).applyEvents (h.stored x)).applyEvents (journalOf (s.nodes x)) := by
    rw [hsnap]
    rw [hnode]
    exact (hinv.node_of_task hnode).state hidle task rfl
  obtain ⟨hrows, hevents, hmax, hcodec⟩ := hok
  have hfits : (s.persistor x).Fits x snap.journal := by
    rw [hjournal]
    have hadmits := (hinv.node_of_task hnode).admits.of_isPrefix (prefix_append _ _)
    rw [← hnode] at hadmits
    exact (hinv.current x fun stage => hrank x stage).fits hadmits
  have hsnapshotted := snapshotted_of_persistState hpersist hrows hevents hmax hcodec hfits
  rw [hjournal, hstate] at hsnapshotted
  refine ⟨hinv.log, hinv.always, hinv.node, fun qid kept hle hkept => ?_, hinv.barrier, hinv.persisted hrank,
    fun qid hqid => ?_, fun y stage hy => ?_⟩
  · refine (hinv.logged qid kept hle hkept).imp_right fun ⟨⟨stage, hy, hcovered⟩, _⟩ => ?_
    have hlt := hrank qid stage hy
    omega
  · have hne : qid ≠ x := by
      rintro rfl
      exact absurd (hqid _ rfl) (lt_irrefl 2)
    simp only [writePersistor, update_of_ne hne]
    exact hinv.current qid fun stage => hrank qid stage
  · cases hy
    refine ⟨hidle, ⟨task, hnode, fun _ hnone => (nomatch hnone)⟩, fun _ => ⟨snap.time now, ?_⟩,
      fun hthree => absurd hthree (by simp [rank])⟩
    simp only [writePersistor, update_self]
    exact hsnapshotted

theorem Inv.flushed (hx : s.sleeping = some (x, .stored time)) :
    Inv S codec cipher start h { s with unsynced := [], sleeping := some (x, .flushed time) } := by
  obtain ⟨hidle, ⟨task, hnode, -⟩, hsnapshot, -⟩ := hinv.sleeper x _ hx
  refine ⟨hinv.log, hinv.always, hinv.node, fun qid kept hle hkept => ?_, hinv.barrier,
    fun _ hmem => absurd hmem not_mem_nil, fun qid hqid => hinv.current qid fun stage hy => ?_, fun y stage hy => ?_⟩
  · refine (hinv.logged qid kept hle hkept).imp_right fun ⟨⟨stage, hy, hcovered⟩, _⟩ => ?_
    cases hx.symm.trans hy
    exact absurd hcovered (by simp [rank])
  · cases hx.symm.trans hy
    exact absurd (hqid _ rfl) (by simp [rank])
  · cases hy
    exact ⟨hidle, ⟨task, hnode, fun _ hnone => (nomatch hnone)⟩, fun _ => hsnapshot le_rfl, fun _ => rfl⟩

theorem Inv.checkpointed (hx : s.sleeping = some (x, .flushed time))
    (hok : Readable S cipher s.wal.fileGeneration ⟨s.wal.nextSeq, .snapshotCheckpoint x time, s.wal.nextSeq⟩) :
    ∃ h', Inv S codec cipher start h'
      { s with wal := (s.wal.append S cipher (.snapshotCheckpoint x time)).1, sleeping := some (x, .checkpointed) } := by
  obtain ⟨hidle, ⟨task, hnode, -⟩, hsnapshot, hflushed⟩ := hinv.sleeper x _ hx
  obtain ⟨count, hlog, hcount⟩ := hinv.log.append hok
  obtain ⟨hpolicy, hgroup⟩ := @append_syncPolicy S cipher s.wal (.snapshotCheckpoint x time)
  have hlength : (h.ops ++ [snapshotCheckpoint x time]).length = h.ops.length + 1 := by
    simp
  have hold := hinv.log.count_le
  have hcount' : h.count ≤ count := by
    obtain rfl | ⟨rfl, -⟩ := hcount <;> omega
  have huncovered : ∀ qid, ¬ s.Covered qid := by
    rintro qid ⟨stage, hy, hcovered⟩
    cases hx.symm.trans hy
    exact absurd hcovered (by simp [rank])
  refine ⟨{ h with ops := h.ops ++ [.snapshotCheckpoint x time], count := count }, hlog, fun halways => ?_, hinv.node,
    fun qid kept hle hkept => ?_, fun qid c hc => ?_, hinv.unsynced, fun qid hqid => hinv.current qid fun stage hy => ?_,
    fun y stage hy => ?_⟩
  · obtain hcount | ⟨-, -, hnot, -⟩ := hcount
    · exact hcount.trans hlength.symm
    · exact absurd (hpolicy ▸ halways) hnot
  · simp only [hlength] at hkept
    by_cases hqid : qid = x
    · subst hqid
      by_cases hbefore : kept ≤ h.ops.length
      · rw [take_append_of_le_length hbefore]
        exact (hinv.logged qid kept (le_trans hcount' hle) hbefore).imp_right fun hcovered =>
          absurd hcovered.1 (huncovered qid)
      · have hall : kept = (h.ops ++ [snapshotCheckpoint qid time]).length := by omega
        refine .inr ⟨⟨.checkpointed, rfl, le_rfl⟩, ?_⟩
        rw [hall, take_length, uncovered_append_checkpoint]
    · have hne : (snapshotCheckpoint x time).nexoraId ≠ some qid := fun heq => hqid (some.inj heq).symm
      exact (hinv.logged_append hne (le_trans hcount' hle) hkept).imp_right fun hcovered =>
        absurd hcovered.1 (huncovered qid)
  · refine ⟨?_, hinv.barrier_of hpolicy hgroup ?_ hc⟩
    · simp only [hlength]
      exact le_succ_of_le (hinv.barrier qid c hc).1
    · exact hcount.imp (fun heq => (le_succ _).trans heq.ge) fun ⟨hsame, hmark, _⟩ => ⟨hsame, hmark⟩
  · cases hx.symm.trans hy
    exact absurd (hqid _ rfl) (by simp [rank])
  · cases hy
    exact ⟨hidle, ⟨task, hnode, fun _ hnone => (nomatch hnone)⟩, fun _ => hsnapshot (by simp [rank]),
      fun _ => hflushed le_rfl⟩

theorem Inv.stopped (hx : s.sleeping = some (x, .checkpointed)) :
    Inv S codec cipher start h { s with sleeping := some (x, .stopped) } := by
  obtain ⟨hidle, ⟨task, hnode, -⟩, hsnapshot, hflushed⟩ := hinv.sleeper x _ hx
  refine ⟨hinv.log, hinv.always, hinv.node, fun qid kept hle hkept => ?_, hinv.barrier, hinv.unsynced,
    fun qid hqid => hinv.current qid fun stage hy => ?_, fun y stage hy => ?_⟩
  · refine (hinv.logged qid kept hle hkept).imp_right fun ⟨⟨stage, hy, _⟩, hnil⟩ => ?_
    cases hx.symm.trans hy
    exact ⟨⟨.stopped, rfl, by simp [rank]⟩, hnil⟩
  · cases hx.symm.trans hy
    exact absurd (hqid _ rfl) (by simp [rank])
  · cases hy
    exact ⟨hidle, ⟨task, hnode, fun _ hnone => (nomatch hnone)⟩, fun _ => hsnapshot (by simp [rank]),
      fun _ => hflushed (by simp [rank])⟩

theorem Inv.truncated (hx : s.sleeping = some (x, .stopped))
    (hok : ∀ other, other ≠ x → s.pending other = none ∧ ∀ task, s.nodes other = some task → task.journal = []) :
    ∃ h', Inv S codec cipher start h'
      { s with nodes := update s.nodes x none, wal := s.wal.truncate, sleeping := none } := by
  obtain ⟨hidle, ⟨task, hnode, -⟩, hsnapshot, hflushed⟩ := hinv.sleeper x _ hx
  obtain ⟨time, hsnapshotted⟩ := hsnapshot (by simp [rank])
  have hunsynced : s.unsynced = [] := hflushed (by simp [rank])
  have hjournal : ∀ qid, journalOf (update s.nodes x none qid) = [] := by
    intro qid
    by_cases hqid : qid = x
    · subst hqid
      rw [update_self]
      rfl
    · rw [update_of_ne hqid]
      cases hnode : s.nodes qid with
      | none => rfl
      | some task => exact (hok qid hqid).2 task hnode
  have hpending : ∀ qid, s.pending qid = none := by
    intro qid
    by_cases hqid : qid = x
    · exact hqid ▸ hidle
    · exact (hok qid hqid).1
  refine ⟨⟨[], 0, update h.stored x (h.stored x ++ journalOf (s.nodes x)),
    update h.origin x (s.persistor x)⟩, .truncate _, fun _ => rfl, fun qid => ?_, fun qid kept _ hkept => ?_,
    fun qid c hc => ?_, fun old hmem => ?_, fun qid _ => ?_, fun y stage hy => (nomatch hy)⟩
  · by_cases hqid : qid = x
    · subst hqid
      simp only [update_self, hpending]
      have hwakes := hsnapshotted.wakesWith S
      rw [← applyEvents_append] at hwakes
      refine .inl ⟨?_, hwakes, trivial, hwakes.admits_nil, fun _ t ht => (nomatch ht), fun _ hc => (nomatch hc)⟩
      rw [(hinv.node_of_task hnode).receipts, hnode]
      exact (append_nil _).symm
    · simp only [update_of_ne hqid]
      exact hinv.node qid
  · refine .inl ?_
    rw [hjournal, hpending]
    have hzero : kept = 0 := le_zero.mp hkept
    rw [hzero]
    rfl
  · rw [hpending] at hc
    cases hc
  · rw [hunsynced] at hmem
    exact absurd hmem not_mem_nil
  · rw [hjournal]
    by_cases hqid : qid = x
    · subst hqid
      simp only [update_self]
      exact .start
    · have hcurrent := hinv.current qid fun stage hy => absurd (Prod.mk.inj (some.inj (hx.symm.trans hy))).1.symm hqid
      have hempty := hjournal qid
      rw [update_of_ne hqid] at hempty
      rw [hempty] at hcurrent
      simp only [update_of_ne hqid]
      exact hcurrent

end Stages

/-! ### Whole runs -/

theorem Inv.sleeperStep {now : EventTime} (hok : s.StepOk S codec cipher (.sleeper now)) :
    ∃ h', (s.step S codec cipher (.sleeper now)).Inv S codec cipher start h' := by
  cases hx : s.sleeping with
  | none => exact ⟨h, by simpa only [step, hx] using hinv⟩
  | some entry =>
    obtain ⟨x, stage⟩ := entry
    have hstage := hok x stage hx
    have habort : stage.rank < 2 → Inv S codec cipher start h { s with sleeping := none } := fun hlt =>
      hinv.setSleeping (fun y other hy => by cases hx.symm.trans hy; exact hlt) fun y other hy => by cases hy
    simp only [step, hx]
    cases stage with
    | captured snap =>
      simp only [advance]
      split
      · next st hpersist => exact ⟨h, hinv.journaled hx hpersist⟩
      · exact ⟨h, habort zero_lt_two⟩
    | journaled snap =>
      simp only [advance]
      split
      · next st hpersist => exact ⟨h, hinv.stored hx hstage hpersist⟩
      · exact ⟨h, habort one_lt_two⟩
    | stored time => exact ⟨h, hinv.flushed hx⟩
    | flushed time => exact hinv.checkpointed hx hstage
    | checkpointed =>
      simp only [advance]
      split
      · exact ⟨h, hinv⟩
      · exact ⟨h, hinv.stopped hx⟩
    | stopped => exact hinv.truncated hx hstage

theorem step_inv {label : ShardStep} (hok : s.StepOk S codec cipher label) :
    ∃ h', (s.step S codec cipher label).Inv S codec cipher start h' := by
  cases label with
  | wake qid now => exact ⟨h, hinv.wake qid now⟩
  | mutate qid request => exact hinv.mutate hok
  | finish qid flusherGone => exact hinv.finish qid flusherGone
  | flusherTick => exact hinv.flusherTick
  | sleep qid => exact ⟨h, hinv.sleep qid⟩
  | sleeper now => exact hinv.sleeperStep hok

end

theorem init_inv (policy : WalSyncPolicy) (fileGeneration : Nat) {persistor : Persistor}
    (hstart : ∀ qid now task, wakeNode S codec (persistor qid) qid now = .ok task → task.state = start qid) :
    (init S cipher policy fileGeneration persistor).Inv S codec cipher start ⟨[], 0, fun _ => [], persistor⟩ where
  log := holds_openWithOptions_nil policy fileGeneration
  always := fun _ => rfl
  node := fun qid => by
    by_cases hwakes : ∃ now task, wakeNode S codec (persistor qid) qid now = .ok task
    · obtain ⟨now, task, hwake⟩ := hwakes
      have hstate := wakesWith_of_wakeNode hwake
      rw [hstart qid now task hwake] at hstate
      exact .inl ⟨rfl, hstate, trivial, hstate.admits_nil, fun _ t ht => (nomatch ht), fun _ hc => (nomatch hc)⟩
    · exact .inr ⟨rfl, rfl, rfl, fun now woken hwake => hwakes ⟨now, woken, hwake⟩⟩
  logged := fun qid kept _ hkept => by
    rw [le_zero.mp hkept]
    exact Or.inl rfl
  barrier := fun qid c hc => (nomatch hc)
  unsynced := fun old hmem => absurd hmem not_mem_nil
  current := fun qid _ => .start
  sleeper := fun x stage hx => (nomatch hx)

variable (S codec cipher)

/-- **Acknowledged writes are durable** in every run of a shard in which commits keep away from
their node's own sleep, wait for stable storage and get readable records with times in order,
snapshots are stored above everything else, and the log is truncated only when no other node has
anything in it. -/
theorem durable_of_along (policy : WalSyncPolicy) (fileGeneration : Nat) {persistor : Persistor}
    (hstart : ∀ qid now task, wakeNode S codec (persistor qid) qid now = .ok task → task.state = start qid)
    {labels : List ShardStep}
    (h : Along (step S codec cipher) (StepOk S codec cipher) (init S cipher policy fileGeneration persistor) labels) :
    (run (step S codec cipher) (init S cipher policy fileGeneration persistor) labels).Durable S codec cipher policy
      start := by
  have hstep : ∀ s label, (∃ hist, Inv S codec cipher start hist s) → StepOk S codec cipher s label →
      ∃ hist, Inv S codec cipher start hist (step S codec cipher s label) := by
    rintro s label ⟨hist, hinv⟩ hok
    exact step_inv hinv hok
  obtain ⟨hist, hinv⟩ := run_invariant hstep ⟨_, init_inv policy fileGeneration hstart⟩ h
  exact hinv.durable policy

/-! ### Two nodes over one log -/

def emptyPersistor : Persistor := fun _ => .inMemory ⟨[], []⟩

def sampleShard : ShardState := init flagLibraries none .always 0 emptyPersistor

theorem wakeNode_emptyPersistor (codec : SnapshotCodec) (qid : NexoraId) (now : EventTime)
    (task : NodeTask)
    (hwake : wakeNode flagLibraries codec (emptyPersistor qid) qid now = .ok task) :
    task.state = .empty := by
  cases hwake
  rfl

/-- Stands for the snapshot codec: it reads back the state with the property `k`. -/
def flagCodec : SnapshotCodec :=
  ⟨fun _ => .ok [], fun _ => .ok (empty.applyEvents [⟨.propertySet "k" (.boolean true), 5⟩])⟩

def flagRun : List ShardStep :=
  [.wake ⟨[1]⟩ 10, .mutate ⟨[1]⟩ ⟨1, flagCommit.operations, none, true⟩, .finish ⟨[1]⟩ false, .sleep ⟨[1]⟩] ++
    replicate 6 (.sleeper 20)

theorem checkpoint_readable {seq : Nat} (hseq : seq = 2) :
    Readable flagLibraries none 0 ⟨seq, .snapshotCheckpoint ⟨[1]⟩ 20, seq⟩ := by
  subst hseq
  exact ⟨Nat.zero_le _, rfl⟩

/-- The node gets a property and is put to sleep, and the log is truncated. -/
theorem durable_flagRun :
    let s := run (step flagLibraries flagCodec none) sampleShard flagRun
    s.Durable flagLibraries flagCodec none .always (fun _ => .empty) ∧ s.wal.file = [] ∧
      s.acknowledged ⟨[1]⟩ = [⟨.propertySet "k" (.boolean true), 5⟩] := by
  refine ⟨durable_of_along flagLibraries flagCodec none .always 0 (wakeNode_emptyPersistor flagCodec) ?_, rfl, rfl⟩
  have hnextSeq := openWithOptions_nil_nextSeq flagLibraries none 0 .always
  refine ⟨trivial, ?_, trivial, trivial, ?_, ?_, ?_, ?_, ?_, ?_, trivial⟩
  · intro task hidle hfind
    cases hidle
    refine ⟨fun x stage hx => (nomatch hx), .inl rfl, ?_, ⟨fun row hrow => absurd hrow not_mem_nil, trivial⟩⟩
    have hreadable := flagBatch_readable 0
    rw [← hnextSeq] at hreadable
    exact hreadable
  all_goals
    intro x stage hx
    cases hx
  · trivial
  · refine ⟨fun row hrow => absurd hrow not_mem_nil, ?_, ?_, fun _ _ => rfl⟩
    · intro time htime
      obtain rfl : time = 5 := mem_singleton.mp htime
      exact (by decide : (5 : EventTime) ≤ 20)
    · exact (by decide : (20 : EventTime) < EventTime.MAX)
  · trivial
  · exact checkpoint_readable (congrArg (· + 1) hnextSeq)
  · trivial
  · intro other hother
    have hsame {α : Type} (f : NexoraId → Option α) (v : Option α) : Function.update f ⟨[1]⟩ v other = f other :=
      update_of_ne hother v f
    refine ⟨(hsame _ _).trans (hsame _ _), fun task htask => ?_⟩
    cases (((hsame _ _).trans (hsame _ _)).trans (hsame _ _)).symm.trans htask

/-- The node `[2]` gets the label `A` and a receipt; then the node `[1]`, which has no data at all,
is put to sleep. -/
def neighbourRun : List ShardStep :=
  [.wake ⟨[2]⟩ 10, .mutate ⟨[2]⟩ ⟨1, [(.addLabel "A", none)], none, true⟩, .finish ⟨[2]⟩ false, .wake ⟨[1]⟩ 10,
    .sleep ⟨[1]⟩, .sleeper 20, .sleeper 20, .sleeper 20, .sleeper 20, .sleeper 20, .sleeper 20]

theorem not_durable_of_file_nil {s : ShardState}
    (hacknowledged : s.acknowledged ⟨[2]⟩ = [⟨.labelAdded "A", 11⟩]) (hfile : s.wal.file = [])
    (hpending : s.pending ⟨[2]⟩ = none) (hpersistor : s.persistor ⟨[2]⟩ = emptyPersistor ⟨[2]⟩) :
    ¬ s.Durable flagLibraries labelCodec none .always fun _ => .empty := by
  intro hdurable
  obtain ⟨task, hrecover, hstate⟩ := hdurable 0 _ mem_cons_self ⟨[2]⟩ (by rw [hacknowledged]; exact cons_ne_nil _ _) 30
  -- Nothing is left to replay, so the node wakes from the persistor, which has never heard of it.
  rw [hfile, take_nil, recoverNode_nil, hpersistor] at hrecover
  have hempty : task.state = .empty := wakeNode_emptyPersistor labelCodec ⟨[2]⟩ 30 task hrecover
  rw [hacknowledged, hpending] at hstate
  obtain hstate | ⟨c, hc, -⟩ := hstate
  · have hlabels : (empty.applyEvents [⟨.labelAdded "A", 11⟩]).labels = empty.labels := by
      rw [← hstate, hempty]
    exact absurd hlabels (by decide)
  · cases hc

/-- The label has a receipt, and the log that had it has been truncated. -/
theorem not_durable_neighbourRun :
    let s := run (step flagLibraries labelCodec none) sampleShard neighbourRun
    s.acknowledged ⟨[2]⟩ = [⟨.labelAdded "A", 11⟩] ∧ s.wal.file = [] ∧
      ¬ s.Durable flagLibraries labelCodec none .always (fun _ => .empty) :=
  ⟨rfl, rfl, not_durable_of_file_nil rfl rfl rfl rfl⟩

end ShardState
end Nexora
