import Nexora.Cluster.ShardDigest
import Nexora.Cluster.ShardMap
import Nexora.Cluster.StateTransfer

/-!
# Repair between replicas

A node compares the digests of its replication logs with those of the other holders
(`nexora-zenoh/src/anti_entropy.rs`). Where one differs it asks for the operations it lacks,
executes each and then records it. An operation whose answer is lost is executed again in the next
round.
-/

namespace Nexora.Cluster
open Lib List ShardLog
open Transfer (CallOutcome)

/-! ### Visits -/

/-- What becomes of the request for a delta. A node without a log answers too. -/
inductive DeltaReply where
  | failed (error : String)
  | undecodable (error : String)
  | unexpected
  | answered (log : Option (ShardReplicationLog GraphOperation))

/-- What a repair meets at a holder of the shard: the log of which it is given the digest, if it is
given one; the log at the time of the second request; the snapshot of the shard with the execution
of its operations; and the execution of the operations of a delta. -/
structure PeerVisit where
  digest : Option (Option (ShardReplicationLog GraphOperation))
  delta : DeltaReply
  transfer : Transfer.TransferRun
  call : Nat → CallOutcome

def shardIdAsU32 (shard : ShardId) : Fin (2 ^ 32) := Fin.ofNat (2 ^ 32) shard.val

section
variable {H : Type} (blake3 : Blake3 H) (floats : FloatText)

def exportDigest (log : Option (ShardReplicationLog GraphOperation)) (shard : ShardId) :
    ShardDigest H :=
  match log with
  | some log => log.computeShardDigest blake3 floats (shardIdAsU32 shard)
  | none => ⟨shardIdAsU32 shard, (0, 0), blake3.zeros⟩

end

def exportDelta (log : Option (ShardReplicationLog GraphOperation)) (shard : ShardId)
    (fromSeq : ReplicationSeq) :
    CatchUp GraphOperation :=
  match log with
  | some log => log.since shard fromSeq
  | none => .tooOld

/-! ### A round -/

/-- The node: its log, and the operations that have been executed on its graph, with the shards they
were executed for. -/
structure Repairer where
  log : ShardReplicationLog GraphOperation
  executed : List (ShardId × GraphOperation)

namespace Repairer

def execute (shard : ShardId) (executed : List (ShardId × GraphOperation)) (op : GraphOperation) :
    List (ShardId × GraphOperation) := executed ++ [(shard, op)]

/-- A query is refused while a barrier is up, and the one of this very repair is. -/
def outcome (guarded : Bool) (call : Nat → CallOutcome) (i : Nat) : GraphOperation → CallOutcome
  | .executeCypher _ =>
    if guarded then
      .refused ("remote execution failed: shard catch-up in progress: refusing whole-graph query to " ++
        "avoid a partial result (retryable)")
    else call i
  | _ => call i

def applyDelta (guarded : Bool) (call : Nat → CallOutcome) (shard : ShardId) :
    Nat → List (ReplicationSeq × GraphOperation) → Repairer → Repairer × Except String Unit
  | _, [], r => (r, .ok ())
  | i, (seq, op) :: rest, r =>
    match outcome guarded call i op with
    | .refused e => (r, .error ("apply op seq " ++ toString seq.val ++ " failed: " ++ e))
    | .lost e =>
      ({ r with executed := execute shard r.executed op }, .error ("apply op seq " ++ toString seq.val ++ " failed: " ++ e))
    | .done =>
      applyDelta guarded call shard (i + 1) rest ⟨(r.log.recordReplica shard seq op).1, execute shard r.executed op⟩

def pullAndApplyDelta (guarded : Bool) (visit : PeerVisit) (shard : ShardId) (peer : NodeName)
    (fromSeq : ReplicationSeq) (r : Repairer) : Repairer × Except String Nat :=
  match visit.delta with
  | .failed e => (r, .error ("ExportDelta from " ++ peer ++ " failed: " ++ e))
  | .undecodable e => (r, .error ("bad delta: " ++ e))
  | .unexpected => (r, .error ("ExportDelta from " ++ peer ++ " returned unexpected shape"))
  | .answered log =>
    match exportDelta log shard fromSeq with
    | .upToDate => (r, .ok 0)
    | .tooOld =>
      match Transfer.catchUpShard (execute shard) visit.transfer false peer shard.val r.executed none with
      | ((executed, _), .error e) => ({ r with executed }, .error ("full snapshot catch-up failed: " ++ e.text))
      | ((executed, _), .ok answer) => ({ r with executed }, .ok (answer.nodesApplied + answer.edgesApplied))
    | .incremental ops =>
      match applyDelta guarded visit.call shard 0 ops r with
      | (r, .error e) => (r, .error e)
      | (r, .ok _) => (r, .ok ops.length)

variable {H : Type} [DecidableEq H] (blake3 : Blake3 H) (floats : FloatText) (guarded : Bool)

/-- The loop over the other holders; the digest of the node's own log has been computed before
it. -/
def repairFromPeers (localDigest : ShardDigest H) (visits : Nat → PeerVisit) (shard : ShardId) :
    Nat → List NodeName → Repairer → Repairer
  | _, [], r => r
  | i, peer :: peers, r =>
    match (visits i).digest with
    | none => repairFromPeers localDigest visits shard (i + 1) peers r
    | some log =>
      if localDigest.rootHash = (exportDigest blake3 floats log shard).rootHash then
        repairFromPeers localDigest visits shard (i + 1) peers r
      else
        match pullAndApplyDelta guarded (visits i) shard peer (r.log.highWater shard) r with
        | (r, .ok _) => r
        | (r, .error _) => repairFromPeers localDigest visits shard (i + 1) peers r

def repairOneShard (visits : Nat → PeerVisit) (shard : ShardId) (peers : List NodeName)
    (r : Repairer) : Repairer :=
  repairFromPeers blake3 floats guarded (r.log.computeShardDigest blake3 floats (shardIdAsU32 shard)) visits shard 0 peers r

end Repairer

/-- A round: the assignments of the map in the order in which they come, and what is met for each
shard, holder by holder. -/
structure RepairRound where
  assignments : List (ShardId × OwnedShard)
  visits : ShardId → Nat → PeerVisit

/-- The other holders of a shard. Only duplicates next to each other are removed. -/
def repairPeers (localNode : NodeName) (assignment : OwnedShard) : List NodeName :=
  ((assignment.owner :: assignment.replicas).filter fun node => node ≠ localNode).destutter (· ≠ ·)

def repairTargets (localNode : NodeName) (assignments : List (ShardId × OwnedShard)) :
    List (ShardId × List NodeName) :=
  assignments.filterMap fun entry =>
    if entry.2.owner = localNode ∨ localNode ∈ entry.2.replicas then
      let peers := repairPeers localNode entry.2
      if peers.isEmpty then none else some (entry.1, peers)
    else none

namespace Repairer
variable {H : Type} [DecidableEq H] (blake3 : Blake3 H) (floats : FloatText) (localNode : NodeName)
    (guarded : Bool)

def performRepair (r : Repairer) (round : RepairRound) : Repairer :=
  (repairTargets localNode round.assignments).foldl
    (fun r target => r.repairOneShard blake3 floats guarded (round.visits target.1) target.1 target.2) r

def executedFor (r : Repairer) (shard : ShardId) : List GraphOperation :=
  (r.executed.filter fun entry => entry.1 = shard).map Prod.snd

theorem executedFor_execute (log : ShardReplicationLog GraphOperation)
    (executed : List (ShardId × GraphOperation)) (shard' : ShardId) (op : GraphOperation)
    (shard : ShardId) :
    (⟨log, execute shard' executed op⟩ : Repairer).executedFor shard =
      (⟨log, executed⟩ : Repairer).executedFor shard ++ if shard' = shard then [op] else [] := by
  unfold executedFor execute
  by_cases h : shard' = shard
  · simp [h]
  · simp [h]

end Repairer

/-! ### Beginnings of a log -/

namespace ShardLog
variable {Op : Type} {log behind : ShardLog Op} {rest : List (ReplicationSeq × Op)}
section
variable (hbehind : behind.Rising) (hlog : log.Rising)
include hbehind hlog

theorem Rising.lt_of_append (h : log.entries = behind.entries ++ rest) {entry : ReplicationSeq × Op}
    (hentry : entry ∈ rest) :
    behind.highWater < entry.1 := by
  by_cases hnil : behind.entries = []
  · rw [hbehind.empty hnil]
    exact hlog.pos entry (h ▸ mem_append_right _ hentry)
  · rw [← hbehind.last _ (getLast?_eq_some_getLast hnil)]
    have hsorted := hlog.sorted
    rw [h] at hsorted
    exact (pairwise_append.mp hsorted).2.2 _ (getLast_mem hnil) entry hentry

theorem Rising.filter_highWater (h : log.entries = behind.entries ++ rest) :
    (log.entries.filter fun entry => behind.highWater < entry.1) = rest := by
  have hold : (behind.entries.filter fun entry => behind.highWater < entry.1) = [] :=
    filter_eq_nil_iff.mpr fun entry hentry => by
      rw [decide_eq_true_eq, not_lt]
      exact hbehind.le_highWater hentry
  have hnew := filter_eq_self.mpr fun entry hentry => decide_eq_true (hbehind.lt_of_append hlog h hentry)
  simp [h, hold, hnew]

theorem Rising.eq_of_entries (h : behind.entries = log.entries) : behind = log := by
  obtain ⟨entries, highWater⟩ := behind
  obtain ⟨entries', highWater'⟩ := log
  obtain rfl : entries = entries' := h
  have hhigh : highWater = highWater' := by
    by_cases hnil : entries = []
    · exact (hbehind.empty hnil).trans (hlog.empty hnil).symm
    · have hlast := getLast?_eq_some_getLast hnil
      exact (hbehind.last _ hlast).symm.trans (hlog.last _ hlast)
  rw [hhigh]

theorem Rising.highWater_le (h : behind.entries <+: log.entries) :
    behind.highWater ≤ log.highWater := by
  by_cases hnil : behind.entries = []
  · rw [hbehind.empty hnil]
    exact Fin.zero_le _
  · rw [← hbehind.last _ (getLast?_eq_some_getLast hnil)]
    exact hlog.le_highWater (h.subset (getLast_mem hnil))

end

theorem entries_push_of_fits {maxEntries : Nat} (h : log.entries.length + 1 ≤ maxEntries)
    (seq : ReplicationSeq) (op : Op) :
    (log.push maxEntries seq op).entries = log.entries ++ [(seq, op)] := by
  have hzero : (log.entries ++ [(seq, op)]).length - maxEntries = 0 := by
    rw [length_append, length_singleton]
    omega
  rw [push, hzero, drop_zero]

theorem BeginsAtOne.of_isPrefix (h : log.BeginsAtOne) (hbeginning : behind.entries <+: log.entries)
    (hne : behind.entries ≠ []) :
    behind.BeginsAtOne := by
  obtain ⟨rest, hrest⟩ := hbeginning
  rw [BeginsAtOne, ← hrest, head?_append_of_ne_nil _ hne] at h
  exact h

end ShardLog

theorem ShardReplicationLog.since_of_highWater_le {Op : Type} {log : ShardReplicationLog Op}
    {shard : ShardId} (hfound : (log.inner.find? shard).isSome) {fromSeq : ReplicationSeq}
    (hle : log.highWater shard ≤ fromSeq) :
    log.since shard fromSeq = .upToDate := by
  obtain ⟨found, hfind⟩ := Option.isSome_iff_exists.mp hfound
  rw [highWater, shardLog, hfind] at hle
  unfold since
  rw [hfind]
  exact if_pos hle

/-! ### A follower behind its owner -/

open ShardReplicationLog

/-- The node's log of the shard is a beginning of the owner's, and what has been executed since the
log had `k` entries are the operations it has gained. -/
structure Repairer.Behind (shard : ShardId) (owner : ShardLog GraphOperation) (k : Nat)
    (base : List GraphOperation)
    (r : Repairer) : Prop where
  rising : (r.log.shardLog shard).Rising
  beginning : (r.log.shardLog shard).entries <+: owner.entries
  le : k ≤ (r.log.shardLog shard).entries.length
  fits : owner.entries.length ≤ r.log.maxEntries
  executed : r.executedFor shard = base ++ ((r.log.shardLog shard).entries.drop k).map Prod.snd

/-- A holder whose log is a beginning of the owner's, and at whose visit no operation is executed
without an answer. -/
structure PeerVisit.Orderly (shard : ShardId) (owner : ShardLog GraphOperation)
    (visit : PeerVisit) : Prop where
  delta : ∀ answer, visit.delta = .answered answer → ∃ log, answer = some log ∧ (log.inner.find? shard).isSome ∧
    (log.shardLog shard).Rising ∧ (log.shardLog shard).entries <+: owner.entries
  call : ∀ i e, visit.call i ≠ .lost e

namespace Repairer
section
variable {shard : ShardId} {owner : ShardLog GraphOperation} {k : Nat} {base : List GraphOperation}
    {r : Repairer}
  {guarded : Bool} {call : Nat → CallOutcome}

theorem outcome_ne_lost (hcall : ∀ i e, call i ≠ .lost e) (i : Nat) (op : GraphOperation)
    (e : String) :
    outcome guarded call i op ≠ .lost e := by
  unfold outcome
  split
  · split
    · exact fun h => nomatch h
    · exact hcall i e
  · exact hcall i e

theorem Behind.fromHere (h : r.Behind shard owner k base) :
    r.Behind shard owner (r.log.shardLog shard).entries.length (r.executedFor shard) :=
  ⟨h.rising, h.beginning, le_rfl, h.fits, by rw [drop_length, map_nil, append_nil]⟩

theorem Behind.record (h : r.Behind shard owner k base) (howner : owner.Rising)
    {seq : ReplicationSeq} {op : GraphOperation}
    (hnext : (r.log.shardLog shard).entries ++ [(seq, op)] <+: owner.entries) :
    Behind shard owner k base ⟨(r.log.recordReplica shard seq op).1, execute shard r.executed op⟩ ∧
      ((r.log.recordReplica shard seq op).1.shardLog shard).entries = (r.log.shardLog shard).entries ++ [(seq, op)] := by
  obtain ⟨rest, hrest⟩ := hnext
  have hseq : (r.log.shardLog shard).highWater < seq := by
    rw [append_assoc] at hrest
    exact h.rising.lt_of_append howner hrest.symm (mem_append_left rest (mem_singleton_self (seq, op)))
  have hlength : (r.log.shardLog shard).entries.length + 1 ≤ r.log.maxEntries := by
    have hlength := congrArg length hrest
    rw [length_append, length_append, length_singleton] at hlength
    have := h.fits
    omega
  have hlog : (r.log.recordReplica shard seq op).1.shardLog shard =
      (r.log.shardLog shard).push r.log.maxEntries seq op := by
    have hrecord := shardLog_record r.log (.recordReplica shard seq op) shard
    rw [LogCall.shard, if_pos rfl, accepts, if_pos hseq] at hrecord
    exact hrecord
  have hentries := entries_push_of_fits hlength seq op
  refine ⟨⟨?_, ?_, ?_, ?_, ?_⟩, by rw [hlog, hentries]⟩
  · rw [hlog]
    exact h.rising.push r.log.maxEntries_pos hseq op
  · rw [hlog, hentries]
    exact ⟨rest, hrest⟩
  · rw [hlog, hentries, length_append]
    exact Nat.le_add_right_of_le h.le
  · exact (maxEntries_record r.log (.recordReplica shard seq op)).symm ▸ h.fits
  · rw [hlog, hentries, drop_append_of_le_length h.le, map_append, ← append_assoc, ← h.executed,
      executedFor_execute, if_pos rfl]
    rfl

theorem Behind.applyDelta (howner : owner.Rising) (hcall : ∀ i e, call i ≠ .lost e)
    {ops : List (ReplicationSeq × GraphOperation)} (i : Nat) (h : r.Behind shard owner k base)
    (hnext : (r.log.shardLog shard).entries ++ ops <+: owner.entries) :
    Behind shard owner k base (r.applyDelta guarded call shard i ops).1 ∧
      ((r.applyDelta guarded call shard i ops).2 = .ok () →
        ((r.applyDelta guarded call shard i ops).1.log.shardLog shard).entries =
          (r.log.shardLog shard).entries ++ ops) := by
  induction ops generalizing i r with
  | nil => exact ⟨h, fun _ => (append_nil _).symm⟩
  | cons entry ops ih =>
    obtain ⟨seq, op⟩ := entry
    unfold applyDelta
    cases hout : outcome guarded call i op with
    | refused e => exact ⟨h, fun hok => nomatch hok⟩
    | lost e => exact absurd hout (outcome_ne_lost hcall i op e)
    | done =>
      rw [← singleton_append, ← append_assoc] at hnext
      obtain ⟨hnew, hentries⟩ := h.record howner ((prefix_append _ ops).trans hnext)
      obtain ⟨hkeep, hdone⟩ := ih (i + 1) hnew (by rw [hentries]; exact hnext)
      refine ⟨hkeep, fun hok => (hdone hok).trans ?_⟩
      simp [hentries]

theorem applyDelta_of_done {ops : List (ReplicationSeq × GraphOperation)} (i : Nat)
    (h : ∀ entry ∈ ops, ∀ j, outcome guarded call j entry.2 = .done) :
    (r.applyDelta guarded call shard i ops).2 = .ok () := by
  induction ops generalizing i r with
  | nil => rfl
  | cons entry ops ih =>
    obtain ⟨hfirst, hrest⟩ := forall_mem_cons.mp h
    unfold applyDelta
    rw [hfirst i]
    exact ih (i + 1) hrest

theorem Behind.since (h : r.Behind shard owner k base)
    (hone : owner.entries ≠ [] → owner.BeginsAtOne) {log : ShardReplicationLog GraphOperation}
    (hfound : (log.inner.find? shard).isSome) (hrising : (log.shardLog shard).Rising)
    (hbeginning : (log.shardLog shard).entries <+: owner.entries) :
    (log.since shard (r.log.highWater shard) = .upToDate ∧ (log.shardLog shard).entries <+: (r.log.shardLog shard).entries) ∨
      ∃ rest, log.since shard (r.log.highWater shard) = .incremental rest ∧
        (log.shardLog shard).entries = (r.log.shardLog shard).entries ++ rest := by
  have hbefore : (log.shardLog shard).entries <+: (r.log.shardLog shard).entries →
      log.since shard (r.log.highWater shard) = .upToDate := fun hle =>
    since_of_highWater_le hfound (hrising.highWater_le h.rising hle)
  obtain hle | ⟨rest, hrest⟩ := prefix_or_prefix_of_prefix hbeginning h.beginning
  · exact .inl ⟨hbefore hle, hle⟩
  cases rest with
  | nil =>
    have hle : (log.shardLog shard).entries <+: (r.log.shardLog shard).entries := by
      simp [← hrest]
    exact .inl ⟨hbefore hle, hle⟩
  | cons first rest =>
    have hfirst : first ∈ (log.shardLog shard).entries := hrest ▸ mem_append_right _ mem_cons_self
    have hlt : r.log.highWater shard < log.highWater shard :=
      lt_of_lt_of_le (h.rising.lt_of_append hrising hrest.symm mem_cons_self) (hrising.le_highWater hfirst)
    have hbegins : (log.shardLog shard).BeginsAtOne :=
      (hone (ne_nil_of_mem (hbeginning.subset hfirst))).of_isPrefix hbeginning (ne_nil_of_mem hfirst)
    refine .inr ⟨first :: rest, ?_, hrest.symm⟩
    rw [since_of_beginsAtOne hbegins hlt]
    exact congrArg CatchUp.incremental (h.rising.filter_highWater hrising hrest.symm)

section
variable (howner : owner.Rising) (hone : owner.entries ≠ [] → owner.BeginsAtOne)
include howner hone

theorem Behind.pull {visit : PeerVisit} (hvisit : visit.Orderly shard owner)
    (h : r.Behind shard owner k base) (peer : NodeName) :
    Behind shard owner k base (r.pullAndApplyDelta guarded visit shard peer (r.log.highWater shard)).1 := by
  unfold pullAndApplyDelta
  cases hdelta : visit.delta with
  | failed | undecodable | unexpected => exact h
  | answered answer =>
    obtain ⟨log, rfl, hfound, hrising, hbeginning⟩ := hvisit.delta answer hdelta
    dsimp only [exportDelta]
    obtain ⟨hsince, -⟩ | ⟨rest, hsince, hrest⟩ := h.since hone hfound hrising hbeginning
    · rw [hsince]
      exact h
    · rw [hsince]
      have hkeep := (@Behind.applyDelta _ _ _ _ _ guarded _ howner hvisit.call _ 0 h (hrest ▸ hbeginning)).1
      dsimp only
      generalize r.applyDelta guarded visit.call shard 0 rest = applied at hkeep
      obtain ⟨r', result⟩ := applied
      cases result with
      | error | ok => exact hkeep

theorem Behind.pull_owner {visit : PeerVisit} (h : r.Behind shard owner k base)
    (hne : (r.log.shardLog shard).entries ≠ owner.entries)
    {log : ShardReplicationLog GraphOperation} (hdelta : visit.delta = .answered (some log))
    (hlog : log.shardLog shard = owner) (hcall : ∀ i e, visit.call i ≠ .lost e)
    (hdone : ∀ entry ∈ owner.entries, entry ∉ (r.log.shardLog shard).entries → ∀ i, outcome guarded visit.call i entry.2 = .done)
    (peer : NodeName) :
    ∃ r' count, r.pullAndApplyDelta guarded visit shard peer (r.log.highWater shard) = (r', .ok count) ∧
      Behind shard owner k base r' ∧ (r'.log.shardLog shard).entries = owner.entries := by
  have hnonempty : owner.entries ≠ [] := by
    intro hnil
    have hbeginning := h.beginning
    rw [hnil, prefix_nil] at hbeginning
    exact hne (hbeginning.trans hnil.symm)
  have hfound : (log.inner.find? shard).isSome := by
    cases hfind : log.inner.find? shard with
    | some found => rfl
    | none =>
      rw [shardLog, hfind] at hlog
      exact absurd (congrArg entries hlog).symm hnonempty
  have hrising : (log.shardLog shard).Rising := hlog ▸ howner
  have hbeginning : (log.shardLog shard).entries <+: owner.entries := by rw [hlog]
  obtain ⟨-, hle⟩ | ⟨rest, hsince, hrest⟩ := h.since hone hfound hrising hbeginning
  · rw [hlog] at hle
    exact absurd (hle.eq_of_length_le h.beginning.length_le).symm hne
  rw [hlog] at hrest
  have hnew : ∀ entry ∈ rest, ∀ i, outcome guarded visit.call i entry.2 = .done := by
    intro entry hentry i
    refine hdone entry (hrest ▸ mem_append_right _ hentry) (fun hold => ?_) i
    exact absurd (h.rising.lt_of_append howner hrest hentry) (not_lt.mpr (h.rising.le_highWater hold))
  obtain ⟨hkeep, hall⟩ := @Behind.applyDelta _ _ _ _ _ guarded _ howner hcall rest 0 h (hrest ▸ prefix_refl _)
  have hok := @applyDelta_of_done shard r guarded visit.call rest 0 hnew
  refine ⟨_, rest.length, ?_, hkeep, (hall hok).trans hrest.symm⟩
  unfold pullAndApplyDelta
  rw [hdelta]
  dsimp only [exportDelta]
  rw [hsince]
  dsimp only
  generalize r.applyDelta guarded visit.call shard 0 rest = applied at hok
  obtain ⟨r', result⟩ := applied
  cases hok
  rfl

end
end

/-! ### What a repair leaves alone -/

/-- The node has the same log of the shard, and nothing has been executed for it. -/
structure SameFor (shard : ShardId) (r r' : Repairer) : Prop where
  shardLog : r'.log.shardLog shard = r.log.shardLog shard
  maxEntries : r'.log.maxEntries = r.log.maxEntries
  executedFor : r'.executedFor shard = r.executedFor shard

section
variable {shard shard' : ShardId} {r r' r'' : Repairer} {guarded : Bool}

theorem SameFor.refl (shard : ShardId) (r : Repairer) : SameFor shard r r := ⟨rfl, rfl, rfl⟩

theorem SameFor.trans (h : SameFor shard r r') (h' : SameFor shard r' r'') : SameFor shard r r'' :=
  ⟨h'.shardLog.trans h.shardLog, h'.maxEntries.trans h.maxEntries, h'.executedFor.trans h.executedFor⟩

theorem Behind.of_sameFor {owner : ShardLog GraphOperation} {k : Nat} {base : List GraphOperation}
    (h : r.Behind shard owner k base) (hsame : SameFor shard r r') :
    r'.Behind shard owner k base := by
  obtain ⟨hlog, hmax, hexecuted⟩ := hsame
  refine ⟨?_, ?_, ?_, ?_, ?_⟩
  · rw [hlog]
    exact h.rising
  · rw [hlog]
    exact h.beginning
  · rw [hlog]
    exact h.le
  · rw [hmax]
    exact h.fits
  · rw [hlog, hexecuted]
    exact h.executed

section
variable (hne : shard' ≠ shard)
include hne

theorem sameFor_execute (op : GraphOperation) :
    SameFor shard r { r with executed := execute shard' r.executed op } := by
  refine ⟨rfl, rfl, ?_⟩
  rw [executedFor_execute, if_neg hne, append_nil]

theorem sameFor_record (seq : ReplicationSeq) (op : GraphOperation) :
    SameFor shard r ⟨(r.log.recordReplica shard' seq op).1, execute shard' r.executed op⟩ := by
  refine ⟨?_, maxEntries_record r.log (.recordReplica shard' seq op), ?_⟩
  · refine (shardLog_record r.log (.recordReplica shard' seq op) shard).trans ?_
    exact if_neg hne
  · rw [executedFor_execute, if_neg hne, append_nil]
    rfl

theorem sameFor_applyDelta (call : Nat → CallOutcome) (i : Nat)
    (ops : List (ReplicationSeq × GraphOperation)) (r : Repairer) :
    SameFor shard r (r.applyDelta guarded call shard' i ops).1 := by
  induction ops generalizing i r with
  | nil => exact .refl shard r
  | cons entry ops ih =>
    obtain ⟨seq, op⟩ := entry
    unfold applyDelta
    cases outcome guarded call i op with
    | refused e => exact .refl shard r
    | lost e => exact sameFor_execute hne op
    | done => exact (sameFor_record hne seq op).trans (ih (i + 1) _)

theorem sameFor_pull (visit : PeerVisit) (peer : NodeName) (fromSeq : ReplicationSeq)
    (r : Repairer) :
    SameFor shard r (r.pullAndApplyDelta guarded visit shard' peer fromSeq).1 := by
  unfold pullAndApplyDelta
  cases visit.delta with
  | failed | undecodable | unexpected => exact .refl shard r
  | answered answer =>
    dsimp only
    cases exportDelta answer shard' fromSeq with
    | upToDate => exact .refl shard r
    | tooOld =>
      have hkeep := @Transfer.catchUpShard_keeps _ (execute shard') visit.transfer false
        (fun executed => SameFor shard r { r with executed })
        (fun executed op hsame => hsame.trans (sameFor_execute hne op)) peer shard'.val r.executed none (.refl shard r)
      generalize Transfer.catchUpShard (execute shard') visit.transfer false peer shard'.val r.executed none = result at hkeep
      obtain ⟨⟨executed, file⟩, outcome⟩ := result
      cases outcome with
      | error | ok => exact hkeep
    | incremental ops =>
      have hkeep := @sameFor_applyDelta shard shard' guarded hne visit.call 0 ops r
      dsimp only
      generalize r.applyDelta guarded visit.call shard' 0 ops = applied at hkeep
      obtain ⟨r', result⟩ := applied
      cases result with
      | error | ok => exact hkeep

end
end
section
variable {H : Type} [DecidableEq H] {blake3 : Blake3 H} {floats : FloatText} {guarded : Bool}
    {localNode : NodeName}

theorem repairFromPeers_keeps {P : Repairer → Prop} {visits : Nat → PeerVisit} {shard : ShardId}
    (hpull : ∀ i peer r, P r → P (r.pullAndApplyDelta guarded (visits i) shard peer (r.log.highWater shard)).1)
    (localDigest : ShardDigest H) (i : Nat) (peers : List NodeName) (r : Repairer) (h : P r) :
    P (r.repairFromPeers blake3 floats guarded localDigest visits shard i peers) := by
  induction peers generalizing i r with
  | nil => exact h
  | cons peer peers ih =>
    unfold repairFromPeers
    cases (visits i).digest with
    | none => exact ih (i + 1) r h
    | some log =>
      dsimp only
      split
      · exact ih (i + 1) r h
      · have hkeep := hpull i peer r h
        generalize r.pullAndApplyDelta guarded (visits i) shard peer (r.log.highWater shard) = pulled at hkeep
        obtain ⟨r', result⟩ := pulled
        cases result with
        | error e => exact ih (i + 1) r' hkeep
        | ok count => exact hkeep

theorem foldl_repair_keeps {P : Repairer → Prop} {visits : ShardId → Nat → PeerVisit}
    (hpull : ∀ shard i peer r, P r → P (r.pullAndApplyDelta guarded (visits shard i) shard peer (r.log.highWater shard)).1)
    (targets : List (ShardId × List NodeName)) (r : Repairer) (h : P r) :
    P (targets.foldl (fun r target => r.repairOneShard blake3 floats guarded (visits target.1) target.1 target.2) r) := by
  induction targets generalizing r with
  | nil => exact h
  | cons target targets ih => exact ih _ (repairFromPeers_keeps (hpull target.1) _ 0 target.2 r h)

variable {shard : ShardId} {owner : ShardLog GraphOperation} {k : Nat} {base : List GraphOperation}
    {r : Repairer}
section
variable (howner : owner.Rising) (hone : owner.entries ≠ [] → owner.BeginsAtOne)
include howner hone

theorem Behind.pull_any {visits : ShardId → Nat → PeerVisit}
    (hvisits : ∀ i, (visits shard i).Orderly shard owner) (shard' : ShardId) (i : Nat)
    (peer : NodeName) (r : Repairer) (h : r.Behind shard owner k base) :
    Behind shard owner k base (r.pullAndApplyDelta guarded (visits shard' i) shard' peer (r.log.highWater shard')).1 := by
  by_cases heq : shard' = shard
  · subst heq
    exact h.pull howner hone (hvisits i) peer
  · exact h.of_sameFor (sameFor_pull heq _ peer _ r)

theorem Behind.foldl_repair {round : RepairRound}
    (hround : ∀ i, (round.visits shard i).Orderly shard owner)
    (targets : List (ShardId × List NodeName)) (h : r.Behind shard owner k base) :
    Behind shard owner k base (targets.foldl
      (fun r target => r.repairOneShard blake3 floats guarded (round.visits target.1) target.1 target.2) r) :=
  foldl_repair_keeps (fun shard' i peer r hr => hr.pull_any howner hone hround shard' i peer r) targets r h

end

/-! ### Digests -/

theorem asShardId_shardIdAsU32 (hshard : shard.val < 2 ^ 32) :
    asShardId (shardIdAsU32 shard) = shard :=
  Fin.ext (Nat.mod_eq_of_lt hshard)

omit [DecidableEq H] in
theorem Behind.rootHash_eq_iff (hblake : blake3.CollisionFree) (howner : owner.Rising)
    (hone : owner.entries ≠ [] → owner.BeginsAtOne) (hshard : shard.val < 2 ^ 32)
    (h : r.Behind shard owner k base) {log : ShardReplicationLog GraphOperation}
    (hlog : log.shardLog shard = owner) :
    (r.log.computeShardDigest blake3 floats (shardIdAsU32 shard)).rootHash =
        (exportDigest blake3 floats (some log) shard).rootHash ↔
      (r.log.shardLog shard).entries = owner.entries := by
  have hmine : r.log.digestEntries (asShardId (shardIdAsU32 shard)) = (r.log.shardLog shard).entries := by
    rw [asShardId_shardIdAsU32 hshard]
    refine digestEntries_of_whole h.rising fun hne => ?_
    exact (hone fun hnil => hne (prefix_nil.mp (hnil ▸ h.beginning))).of_isPrefix h.beginning hne
  have htheirs : log.digestEntries (asShardId (shardIdAsU32 shard)) = owner.entries := by
    rw [asShardId_shardIdAsU32 hshard, digestEntries_of_whole (hlog ▸ howner) (hlog ▸ hone), hlog]
  show _ = (log.computeShardDigest blake3 floats (shardIdAsU32 shard)).rootHash ↔ _
  obtain ⟨rest, hrest⟩ := h.beginning
  by_cases hnil : owner.entries = []
  · have hempty : (r.log.shardLog shard).entries = [] := prefix_nil.mp (hnil ▸ h.beginning)
    rw [rootHash_of_nil blake3 floats (hmine.trans hempty),
      rootHash_of_nil blake3 floats (htheirs.trans hnil)]
    exact iff_of_true rfl (hempty.trans hnil.symm)
  · have hne : log.digestEntries (asShardId (shardIdAsU32 shard)) ≠ [] := htheirs ▸ hnil
    rw [rootHash_of_ne_nil blake3 floats hne, htheirs]
    by_cases hempty : (r.log.shardLog shard).entries = []
    · rw [rootHash_of_nil blake3 floats (hmine.trans hempty), hempty]
      exact iff_of_false (hblake.ne_zeros _).symm (Ne.symm hnil)
    · have hne' : r.log.digestEntries (asShardId (shardIdAsU32 shard)) ≠ [] := hmine ▸ hempty
      rw [rootHash_of_ne_nil blake3 floats hne', hmine, hblake.injective.eq_iff]
      refine ⟨fun heq => ?_, fun heq => by rw [heq]⟩
      -- What is hashed of a log begins with what is hashed of a beginning of it.
      rw [← hrest, digestInput, digestInput, flatMap_append, self_eq_append_right] at heq
      cases rest with
      | nil => rw [← hrest, append_nil]
      | cons first rest => exact absurd heq (digestInput_cons_ne_nil first rest)

/-! ### Convergence -/

end
end Repairer

theorem head_destutter' {α : Type} (R : α → α → Prop) [DecidableRel R] (a : α) (l : List α) :
    ∃ rest, l.destutter' R a = a :: rest := by
  induction l with
  | nil => exact ⟨[], rfl⟩
  | cons b l ih =>
    by_cases h : R a b
    · exact ⟨_, destutter'_cons_pos l h⟩
    · rw [destutter'_cons_neg l h]
      exact ih

theorem head_repairPeers {localNode : NodeName} {assignment : OwnedShard}
    (h : assignment.owner ≠ localNode) :
    ∃ rest, repairPeers localNode assignment = assignment.owner :: rest := by
  unfold repairPeers
  rw [filter_cons_of_pos (by simpa using h)]
  exact head_destutter' _ _ _

def RepairRound.Orderly (shard : ShardId) (owner : ShardLog GraphOperation) (round : RepairRound) :
    Prop :=
  ∀ i, (round.visits shard i).Orderly shard owner

/-- The round gets through to the owner of the shard, which has the log throughout, and all that is
sent to the node itself is executed and answered. -/
structure RepairRound.Reaches (localNode : NodeName) (guarded : Bool) (shard : ShardId)
    (owner : ShardLog GraphOperation)
    (r : Repairer) (round : RepairRound) : Prop where
  assignment : ∃ assignment, (shard, assignment) ∈ round.assignments ∧ assignment.owner ≠ localNode ∧
    localNode ∈ assignment.replicas
  digest : ∃ log, (round.visits shard 0).digest = some (some log) ∧ log.shardLog shard = owner
  delta : ∃ log, (round.visits shard 0).delta = .answered (some log) ∧ log.shardLog shard = owner
  done : ∀ i, (round.visits shard 0).call i = .done
  queries : guarded = true → ∀ entry ∈ owner.entries, entry ∉ (r.log.shardLog shard).entries →
    ∀ query, entry.2 ≠ .executeCypher query

namespace Repairer
variable {H : Type} [DecidableEq H] {blake3 : Blake3 H} {floats : FloatText} {guarded : Bool}
    {localNode : NodeName}
  {shard : ShardId} {owner : ShardLog GraphOperation} {k : Nat} {base : List GraphOperation} {r : Repairer}

section
variable (hblake : blake3.CollisionFree) (howner : owner.Rising)
    (hone : owner.entries ≠ [] → owner.BeginsAtOne)
  (hshard : shard.val < 2 ^ 32) {round : RepairRound} (hround : ∀ i, (round.visits shard i).Orderly shard owner)
  (hreach : round.Reaches localNode guarded shard owner r) (h : r.Behind shard owner k base)

include hblake howner hone hshard hround hreach h

theorem Behind.repairOneShard_reaches (peer : NodeName) (peers : List NodeName) :
    ((r.repairOneShard blake3 floats guarded (round.visits shard) shard (peer :: peers)).log.shardLog shard).entries =
      owner.entries := by
  obtain ⟨digestLog, hdigest, hdigestLog⟩ := hreach.digest
  obtain ⟨log, hdelta, hlog⟩ := hreach.delta
  have hsame := @Behind.rootHash_eq_iff _ blake3 floats _ _ _ _ _ hblake howner hone hshard h _ hdigestLog
  unfold repairOneShard repairFromPeers
  rw [hdigest]
  dsimp only
  by_cases heven : (r.log.shardLog shard).entries = owner.entries
  · -- Nothing is missing, and the other holders have nothing more.
    rw [if_pos (hsame.mpr heven)]
    have hfull : r.Behind shard owner owner.entries.length (r.executedFor shard) := heven ▸ h.fromHere
    have hkept := @repairFromPeers_keeps _ _ blake3 floats guarded (Behind shard owner owner.entries.length (r.executedFor shard))
      _ shard (fun i peer r hr => hr.pull howner hone (hround i) peer)
      (r.log.computeShardDigest blake3 floats (shardIdAsU32 shard)) (0 + 1) peers r hfull
    exact hkept.beginning.eq_of_length_le hkept.le
  · rw [if_neg (mt hsame.mp heven)]
    have hdone : ∀ entry ∈ owner.entries, entry ∉ (r.log.shardLog shard).entries →
        ∀ i, outcome guarded (round.visits shard 0).call i entry.2 = .done := by
      intro entry hentry hnew i
      unfold outcome
      split
      · next query hquery =>
        rw [if_neg fun hguarded => hreach.queries hguarded entry hentry hnew query hquery]
        exact hreach.done i
      · exact hreach.done i
    obtain ⟨r', count, hpull, -, hentries⟩ :=
      h.pull_owner howner hone heven hdelta hlog (hround 0).call hdone peer
    rw [hpull]
    exact hentries

theorem Behind.performRepair_reaches :
    ((r.performRepair blake3 floats localNode guarded round).log.shardLog shard).entries = owner.entries := by
  obtain ⟨assignment, hassigned, howns, hholds⟩ := hreach.assignment
  obtain ⟨peers, hpeers⟩ := head_repairPeers howns
  have htarget : (shard, assignment.owner :: peers) ∈ repairTargets localNode round.assignments := by
    refine mem_filterMap.mpr ⟨_, hassigned, ?_⟩
    rw [if_pos (.inr hholds), hpeers]
    rfl
  obtain ⟨before, after, hsplit⟩ := append_of_mem htarget
  unfold performRepair
  rw [hsplit, foldl_append, foldl_cons]
  have hbefore := @Behind.foldl_repair _ _ blake3 floats guarded _ _ _ _ _ howner hone _ hround before h.fromHere
  generalize before.foldl _ r = r₁ at hbefore ⊢
  have hgrown := prefix_of_prefix_length_le h.beginning hbefore.beginning hbefore.le
  have hreach₁ : round.Reaches localNode guarded shard owner r₁ :=
    ⟨hreach.assignment, hreach.digest, hreach.delta, hreach.done, fun hguarded entry hentry hnew =>
      hreach.queries hguarded entry hentry fun hold => hnew (hgrown.subset hold)⟩
  have heven := @Behind.repairOneShard_reaches _ _ blake3 floats _ _ _ _ _ _ _ hblake howner hone hshard _ hround hreach₁ hbefore
    assignment.owner peers
  have hkept := @Behind.foldl_repair _ _ blake3 floats guarded _ _ _ _ _ howner hone _ hround
    [(shard, assignment.owner :: peers)] hbefore
  rw [foldl_cons, foldl_nil] at hkept
  generalize repairOneShard blake3 floats guarded (round.visits shard) shard
    (assignment.owner :: peers) r₁ = r₂ at heven hkept ⊢
  have hafter := @Behind.foldl_repair _ _ blake3 floats guarded _ _ _ _ _ howner hone _ hround after hkept.fromHere
  have hle := hafter.le
  rw [heven] at hle
  exact hafter.beginning.eq_of_length_le hle

end

/-- **Repair converges.** The rounds before may have failed anywhere, as long as no operation was
executed without an answer and the holders that were asked had beginnings of the owner's log: after
a round that gets through to the owner the logs are the same, and so are the digests, and what was
missing has been executed once, in order. -/
theorem converged_of_along (hblake : blake3.CollisionFree) (howner : owner.Rising)
    (hone : owner.entries ≠ [] → owner.BeginsAtOne) (hshard : shard.val < 2 ^ 32)
    (hrising : (r.log.shardLog shard).Rising)
    (hbeginning : (r.log.shardLog shard).entries <+: owner.entries)
    (hfits : owner.entries.length ≤ r.log.maxEntries) {earlier : List RepairRound}
    {last : RepairRound}
    (h : Along (performRepair blake3 floats localNode guarded) (fun _ round => round.Orderly shard owner) r (earlier ++ [last]))
    (hreach : last.Reaches localNode guarded shard owner (run (performRepair blake3 floats localNode guarded) r earlier)) :
    let r' := run (performRepair blake3 floats localNode guarded) r (earlier ++ [last])
    r'.log.shardLog shard = owner ∧
      (∀ log : ShardReplicationLog GraphOperation, log.shardLog shard = owner →
        r'.log.computeShardDigest blake3 floats (shardIdAsU32 shard) = exportDigest blake3 floats (some log) shard) ∧
      r'.executedFor shard =
        r.executedFor shard ++ (owner.entries.drop (r.log.shardLog shard).entries.length).map Prod.snd := by
  have hstart : r.Behind shard owner (r.log.shardLog shard).entries.length (r.executedFor shard) :=
    ⟨hrising, hbeginning, le_rfl, hfits, by rw [drop_length, map_nil, append_nil]⟩
  obtain ⟨hearlier, hlast, -⟩ := along_append.mp h
  have hstep : ∀ s round, Behind shard owner (r.log.shardLog shard).entries.length (r.executedFor shard) s →
      round.Orderly shard owner → Behind shard owner (r.log.shardLog shard).entries.length (r.executedFor shard)
        (s.performRepair blake3 floats localNode guarded round) :=
    fun s round hs hround => hs.foldl_repair howner hone hround _
  have hbefore := run_invariant hstep hstart hearlier
  rw [run_append]
  have hafter := hstep _ _ hbefore hlast
  have heven := @Behind.performRepair_reaches _ _ blake3 floats _ _ _ _ _ _ _ hblake howner hone hshard _ hlast hreach hbefore
  rw [run_cons, run_nil]
  generalize (run (performRepair blake3 floats localNode guarded) r earlier).performRepair blake3 floats localNode guarded last = r'
    at hafter heven ⊢
  have hsame : r'.log.shardLog shard = owner := hafter.rising.eq_of_entries howner heven
  refine ⟨hsame, fun log hlog => ?_, hafter.executed.trans (by rw [heven])⟩
  have hentries : r'.log.digestEntries (asShardId (shardIdAsU32 shard)) =
      log.digestEntries (asShardId (shardIdAsU32 shard)) := by
    rw [asShardId_shardIdAsU32 hshard, digestEntries_of_whole hafter.rising (hsame ▸ hone),
      digestEntries_of_whole (hlog ▸ howner) (hlog ▸ hone), hsame, hlog]
  show _ = log.computeShardDigest blake3 floats (shardIdAsU32 shard)
  unfold computeShardDigest
  rw [hentries]

/-! ### An answer that is lost -/

end Repairer

def ownerLog : ShardReplicationLog GraphOperation := afterWrites 4 [true]

def ownerAnswers (outcome : CallOutcome) : RepairRound where
  assignments := [(0, { owner := "a", replicas := ["b"], epoch := 1, writable := true })]
  visits _ _ :=
    { digest := some (some ownerLog)
      delta := .answered (some ownerLog)
      transfer := ⟨.error (.badExport "a"), .ok (), fun _ => outcome, fun _ => true, true⟩
      call := fun _ => outcome }

def newFollower : Repairer := ⟨.new 4, []⟩

namespace Repairer

theorem rising_ownerLog : (ownerLog.shardLog 0).Rising :=
  rising_of_along rfl ⟨fun _ => by decide, trivial⟩

theorem orderly_ownerAnswers {outcome : CallOutcome} (h : ∀ e, outcome ≠ .lost e) :
    (ownerAnswers outcome).Orderly 0 (ownerLog.shardLog 0) := by
  refine fun _ => ⟨fun answer hanswer => ?_, fun _ => h⟩
  cases hanswer
  exact ⟨ownerLog, rfl, rfl, rising_ownerLog, prefix_refl _⟩

/-- One round is refused, the next one gets through, and the write has been executed once. -/
theorem executed_once : (run (performRepair plainHash bitsText "b" true) newFollower
      ([ownerAnswers (.refused "timeout")] ++ [ownerAnswers .done])).executedFor 0 = [write true] := by
  have hreach : (ownerAnswers .done).Reaches "b" true 0 (ownerLog.shardLog 0)
      (run (performRepair plainHash bitsText "b" true) newFollower [ownerAnswers (.refused "timeout")]) := by
    refine ⟨⟨_, mem_singleton_self _, by decide, by decide⟩, ⟨ownerLog, rfl, rfl⟩, ⟨ownerLog, rfl, rfl⟩, fun _ => rfl, ?_⟩
    intro _ entry hentry _ query hquery
    rw [mem_singleton.mp hentry] at hquery
    cases hquery
  have halong : Along (performRepair plainHash bitsText "b" true) (fun _ round => round.Orderly 0 (ownerLog.shardLog 0)) newFollower
      ([ownerAnswers (.refused "timeout")] ++ [ownerAnswers .done]) :=
    ⟨orderly_ownerAnswers (fun _ h => nomatch h), orderly_ownerAnswers (fun _ h => nomatch h), trivial⟩
  have hrising : (newFollower.log.shardLog 0).Rising := rising_new
  exact (converged_of_along collisionFree_plainHash rising_ownerLog (fun _ => rfl) (by decide) hrising nil_prefix (by decide)
    halong hreach).2.2

/-- **An operation that is executed without an answer is executed again**, though the logs come to
agree. -/
theorem executed_twice :
    let r := run (performRepair plainHash bitsText "b" true) newFollower [ownerAnswers (.lost "timeout"), ownerAnswers .done]
    r.executedFor 0 = [write true, write true] ∧ r.log.shardLog 0 = ownerLog.shardLog 0 :=
  ⟨rfl, rfl⟩

end Repairer
end Nexora.Cluster
