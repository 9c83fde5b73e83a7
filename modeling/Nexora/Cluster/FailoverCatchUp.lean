import Nexora.Cluster.CatchUp
import Nexora.Cluster.ShardMap
import Nexora.Cluster.TransactionCoordinator

/-!
# A promoted owner catches up while clients write

A promoted owner publishes the new map and then, shard by shard, raises a barrier, executes what it
has missed and lowers the barrier (`nexora-zenoh/src/cluster.rs`, `catch_up_barrier.rs`). Meanwhile
clients write; a forwarded write is executed without a look at the barrier
(`graph_service_adapter.rs`).
-/

namespace Nexora.Cluster
open Lib List ShardReplicationLog

/-! ### Operations and their sources -/

abbrev Cell := NexoraId × String

/-- An operation with the time at which it was issued, which the program does not know. -/
structure Issued where
  op : GraphOperation
  time : Nat

def GraphOperation.sets : GraphOperation → Option Cell
  | .setProperty qid key _ => some (qid, key)
  | .fencedWrite _ _ _ (.setProperty qid key _) => some (qid, key)
  | _ => none

structure PropertyEntry where
  key : String
  value : Json
  time : Nat

structure NodeEntry where
  qid : NexoraId
  properties : List PropertyEntry

structure EdgeEntry where
  source : NexoraId
  edgeType : String
  direction : String
  target : NexoraId
  time : Nat

structure ShardSnapshot where
  nodes : List NodeEntry
  edges : List EdgeEntry

def ShardSnapshot.ops (snapshot : ShardSnapshot) : List Issued :=
  (snapshot.nodes.flatMap fun node =>
    node.properties.map fun entry => ⟨.setProperty node.qid entry.key entry.value, entry.time⟩) ++
  snapshot.edges.map fun edge => ⟨.addEdge edge.source edge.edgeType edge.target edge.direction, edge.time⟩

/-- What a surviving replica has when it is asked: its log, if it keeps one, and its graph. A write
is logged under the shard of the node that it writes to. -/
structure CatchUpSource (shardOf : NexoraId → ShardId) where
  log : Option (ShardReplicationLog Issued)
  graph : ShardSnapshot
  logged : ∀ log' ∈ log, ∀ shard, ∀ entry ∈ (log'.shardLog shard).entries, ∀ cell ∈ entry.2.op.sets,
    shardOf cell.1 = shard

namespace CatchUpSource
variable {shardOf : NexoraId → ShardId} (source : CatchUpSource shardOf)

def exportDelta (shard : ShardId) (fromSeq : ReplicationSeq) : CatchUp Issued :=
  source.log.elim .tooOld fun log => log.since shard fromSeq

def exportShard (shard : ShardId) : ShardSnapshot where
  nodes := source.graph.nodes.filter fun node => shardOf node.qid = shard ∧ ¬ node.properties.isEmpty
  edges := source.graph.edges.filter fun edge => shardOf edge.source = shard

end CatchUpSource

/-! ### The barrier -/

structure CatchUpBarrier where
  blocked : List ShardId

namespace CatchUpBarrier

def new : CatchUpBarrier := ⟨[]⟩

def begin (barrier : CatchUpBarrier) (shard : ShardId) : CatchUpBarrier :=
  ⟨barrier.blocked.insert shard⟩

def end' (barrier : CatchUpBarrier) (shard : ShardId) : CatchUpBarrier :=
  ⟨barrier.blocked.filter (· ≠ shard)⟩

def isBlocked (barrier : CatchUpBarrier) (shard : ShardId) : Bool := barrier.blocked.contains shard

end CatchUpBarrier

/-! ### The promoted owner -/

inductive CatchUpPhase where
  | failingOver
  | between
  | due (shard : ShardId) (fromSeq : ReplicationSeq)
  | fetching (shard : ShardId) (fromSeq : ReplicationSeq)
  | exporting (shard : ShardId)
  | replaying (shard : ShardId) (ops : List Issued)
  | closing (shard : ShardId)

structure ClientWrite where
  qid : NexoraId
  key : String
  value : Json

namespace ClientWrite

def cell (write : ClientWrite) : Cell := (write.qid, write.key)

def op (write : ClientWrite) : GraphOperation := .setProperty write.qid write.key write.value

end ClientWrite

inductive ClientState where
  | idle
  | checked (write : ClientWrite)
  | written (write : ClientWrite) (time : Nat)
  | acknowledged
  | refused

inductive Applied where
  | client (id : Nat) (cell : Cell) (time : Nat)
  | catchUp (issued : Issued)

/-- The node, with the writes to its graph, the last one first, and the operations of the catch-up
whose calls have timed out and that may still be executed. -/
structure PromotedOwner where
  map : ShardMap
  barrier : CatchUpBarrier
  log : ShardReplicationLog Issued
  targets : List ShardId
  phase : CatchUpPhase
  clients : Nat → ClientState
  clock : Nat
  late : List Issued
  history : List Applied

/-- A step of the loop or of a client, with what it meets: a source that does not answer is `none`,
and a replication that was not asked for is `none`. -/
inductive FailoverStep (shardOf : NexoraId → ShardId) where
  | update (map : ShardMap)
  | publish (map : ShardMap)
  | readHighWater
  | raise
  | fetchDelta (answer : Option (CatchUpSource shardOf))
  | fetchShard (answer : Option (CatchUpSource shardOf))
  | replay (ok : Bool)
  | timeout
  | late (i : Nat)
  | lower
  | check (id : Nat) (write : ClientWrite)
  | setProperty (id : Nat) (ok : Bool)
  | replicate (id : Nat) (outcome : Option Bool)
  | forwarded (id : Nat) (write : ClientWrite) (ok : Bool)

namespace PromotedOwner

def setClient (s : PromotedOwner) (id : Nat) (state : ClientState) : PromotedOwner :=
  { s with clients := Function.update s.clients id state }

def apply (s : PromotedOwner) (id : Nat) (write : ClientWrite) : PromotedOwner :=
  { s with history := .client id write.cell s.clock :: s.history, clock := s.clock + 1 }

def isLocal (map : ShardMap) (shard : ShardId) : Bool :=
  (map.get shard.val).any fun a => a.owner = map.localNode

variable {shardOf : NexoraId → ShardId}

def receiveDelta (s : PromotedOwner) (shard : ShardId) : CatchUp Issued → PromotedOwner
  | .upToDate => { s with phase := .closing shard }
  | .tooOld => { s with phase := .exporting shard }
  | .incremental delta => { s with phase := .replaying shard (delta.map Prod.snd) }

/-- The next operation of the catch-up is executed by the node itself. A query is refused while a
barrier is up, and the one of this very catch-up is. -/
def replayNext (s : PromotedOwner) (shard : ShardId) (ok : Bool) : List Issued → PromotedOwner
  | [] => { s with phase := .closing shard }
  | issued :: rest =>
    match ok, issued.op with
    | true, .executeCypher _ => { s with phase := .closing shard }
    | true, _ => { s with phase := .replaying shard rest, history := .catchUp issued :: s.history }
    | false, _ => { s with phase := .closing shard }

def step (s : PromotedOwner) : FailoverStep shardOf → PromotedOwner
  | .update map => { s with map := map }
  | .publish map =>
    match s.phase with
    | .failingOver => { s with map := map, phase := .between }
    | _ => s
  | .readHighWater =>
    match s.phase, s.targets with
    | .between, shard :: targets => { s with targets := targets, phase := .due shard (s.log.highWater shard) }
    | _, _ => s
  | .raise =>
    match s.phase with
    | .due shard fromSeq => { s with barrier := s.barrier.begin shard, phase := .fetching shard fromSeq }
    | _ => s
  | .fetchDelta answer =>
    match s.phase with
    | .fetching shard fromSeq =>
      match answer with
      | some source => s.receiveDelta shard (source.exportDelta shard fromSeq)
      | none => { s with phase := .closing shard }
    | _ => s
  | .fetchShard answer =>
    match s.phase with
    | .exporting shard =>
      match answer with
      | some source => { s with phase := .replaying shard (source.exportShard shard).ops }
      | none => { s with phase := .closing shard }
    | _ => s
  | .replay ok =>
    match s.phase with
    | .replaying shard ops => s.replayNext shard ok ops
    | _ => s
  | .timeout =>
    match s.phase with
    | .replaying shard (issued :: _) => { s with phase := .closing shard, late := issued :: s.late }
    | _ => s
  | .late i =>
    match s.late[i]? with
    | some issued => { s with late := s.late.eraseIdx i, history := .catchUp issued :: s.history }
    | none => s
  | .lower =>
    match s.phase with
    | .closing shard => { s with barrier := s.barrier.end' shard, phase := .between }
    | _ => s
  | .check id write =>
    match s.clients id with
    | .idle =>
      -- A write to a shard of another node is forwarded there.
      if isLocal s.map (shardOf write.qid) then
        s.setClient id (if s.barrier.isBlocked (shardOf write.qid) then .refused else .checked write)
      else s
    | _ => s
  | .setProperty id ok =>
    match s.clients id with
    | .checked write => if ok then (s.apply id write).setClient id (.written write s.clock) else s.setClient id .refused
    | _ => s
  | .replicate id outcome =>
    match s.clients id with
    | .written write time =>
      match outcome with
      | none => s.setClient id .acknowledged
      | some ok =>
        { s with log := (s.log.recordOwner (shardOf write.qid) ⟨write.op, time⟩).1 }.setClient id
          (if ok then .acknowledged else .refused)
    | _ => s
  | .forwarded id write ok =>
    match s.clients id with
    | .idle => if ok then (s.apply id write).setClient id .acknowledged else s.setClient id .refused
    | _ => s

/-- An operation of the catch-up sets a property after an acknowledged write of a client that was
issued later. -/
def Replaces (s : PromotedOwner) (later earlier : Applied) : Prop :=
  ∃ issued id cell time, later = .catchUp issued ∧ earlier = .client id cell time ∧ s.clients id = .acknowledged ∧
    issued.op.sets = some cell ∧ issued.time < time

/-- **No acknowledged value is replaced by an older operation.** -/
def KeepsWrites (s : PromotedOwner) : Prop :=
  s.history.Pairwise fun later earlier => ¬ s.Replaces later earlier

def outstanding (s : PromotedOwner) : List ShardId :=
  match s.phase with
  | .due shard _ | .fetching shard _ | .exporting shard => shard :: s.targets
  | _ => s.targets

def pending (s : PromotedOwner) : List Issued :=
  (match s.phase with
  | .replaying _ ops => ops
  | _ => []) ++ s.late

/-- Nothing that the catch-up will still execute sets the property. -/
structure Settled (shardOf : NexoraId → ShardId) (s : PromotedOwner) (cell : Cell) : Prop where
  fetched : shardOf cell.1 ∉ s.outstanding
  free : ∀ issued ∈ s.pending, issued.op.sets ≠ some cell

/-- Clients' writes are executed only on properties that the catch-up is through with. What a query
sets is not known, and none is executed late. -/
def Spared (s : PromotedOwner) : FailoverStep shardOf → Prop
  | .setProperty id ok => ∀ write, s.clients id = .checked write → ok = true → s.Settled shardOf write.cell
  | .forwarded id write ok => s.clients id = .idle → ok = true → s.Settled shardOf write.cell
  | .late i => ∀ issued, s.late[i]? = some issued → ∀ query, issued.op ≠ .executeCypher query
  | _ => True

end PromotedOwner

/-! ### What a source answers -/

namespace CatchUpSource
variable {shardOf : NexoraId → ShardId} {source : CatchUpSource shardOf} {shard : ShardId}

theorem shardOf_of_exportDelta {fromSeq : ReplicationSeq} {delta : List (ReplicationSeq × Issued)}
    (h : source.exportDelta shard fromSeq = .incremental delta) :
    ∀ entry ∈ delta, ∀ cell ∈ entry.2.op.sets, shardOf cell.1 = shard := by
  intro entry hentry
  unfold exportDelta at h
  cases hlog : source.log with
  | none =>
    rw [hlog] at h
    cases h
  | some log =>
    rw [hlog] at h
    have hmem : entry ∈ (log.shardLog shard).entries := by
      obtain ⟨-, -, hdelta⟩ := since_eq_incremental h
      rw [hdelta] at hentry
      exact (mem_filter.mp hentry).1
    exact source.logged log hlog shard entry hmem

private theorem shardOf_of_exportShard :
    ∀ issued ∈ (source.exportShard shard).ops, ∀ cell ∈ issued.op.sets, shardOf cell.1 = shard := by
  intro issued hissued cell hcell
  obtain hproperty | hedge := mem_append.mp hissued
  · obtain ⟨node, hnode, hentry⟩ := mem_flatMap.mp hproperty
    obtain ⟨entry, -, rfl⟩ := mem_map.mp hentry
    cases hcell
    have hshard := of_decide_eq_true (mem_filter.mp hnode).2
    exact hshard.1
  · obtain ⟨edge, -, rfl⟩ := mem_map.mp hedge
    cases hcell

end CatchUpSource

namespace PromotedOwner
variable {shardOf : NexoraId → ShardId} {s : PromotedOwner}

/-! ### One step -/

/-- No shard is asked for again, and what is newly pending is of a shard that was outstanding. -/
structure Ahead (shardOf : NexoraId → ShardId) (s s' : PromotedOwner) : Prop where
  outstanding : ∀ shard ∈ s'.outstanding, shard ∈ s.outstanding
  pending : ∀ issued ∈ s'.pending, issued ∈ s.pending ∨ ∀ cell ∈ issued.op.sets,
    shardOf cell.1 ∈ s.outstanding

variable {shard : ShardId} {s' : PromotedOwner} {label : FailoverStep shardOf}

theorem mem_outstanding_of_mem_targets (h : shard ∈ s.targets) : shard ∈ s.outstanding := by
  unfold outstanding
  split
  · exact mem_cons_of_mem _ h
  · exact mem_cons_of_mem _ h
  · exact mem_cons_of_mem _ h
  · exact h

theorem Ahead.of_eq (hout : s'.outstanding = s.outstanding) (hpend : s'.pending = s.pending) :
    s.Ahead shardOf s' :=
  ⟨fun _ hshard => hout ▸ hshard, fun _ hissued => .inl (hpend ▸ hissued)⟩

theorem Ahead.close (shard : ShardId) : s.Ahead shardOf { s with phase := .closing shard } :=
  ⟨fun _ hshard => mem_outstanding_of_mem_targets hshard, fun _ hissued => .inl (mem_append_right _ hissued)⟩

theorem Ahead.fetch {ops : List Issued} (hshard : shard ∈ s.outstanding)
    (hops : ∀ issued ∈ ops, ∀ cell ∈ issued.op.sets, shardOf cell.1 = shard) :
    s.Ahead shardOf { s with phase := .replaying shard ops } := by
  constructor
  · exact fun _ hother => mem_outstanding_of_mem_targets hother
  · intro issued hissued
    obtain hissued | hlate := mem_append.mp hissued
    · right
      intro cell hcell
      rw [hops issued hissued cell hcell]
      exact hshard
    · exact .inl (mem_append_right _ hlate)

theorem Settled.ahead {cell : Cell} (h : s.Settled shardOf cell) (hahead : s.Ahead shardOf s') :
    s'.Settled shardOf cell := by
  constructor
  · exact fun hout => h.fetched (hahead.outstanding _ hout)
  · intro issued hissued hsets
    obtain hold | hnew := hahead.pending issued hissued
    · exact h.free issued hold hsets
    · exact h.fetched (hnew cell hsets)

/-- **What a step can do**: nothing to the graph, or execute a pending operation, or execute a
client's write. -/
inductive Effect (s : PromotedOwner) (label : FailoverStep shardOf) (s' : PromotedOwner) : Prop
  | quiet (hahead : s.Ahead shardOf s') (hhistory : s'.history = s.history)
  | replayed (issued : Issued) (hahead : s.Ahead shardOf s') (hpending : issued ∈ s.pending)
      (hhistory : s'.history = .catchUp issued :: s.history)
  | client (id : Nat) (write : ClientWrite) (hahead : s.Ahead shardOf s')
      (hspared : s.Spared label → s.Settled shardOf write.cell) (hhistory : s'.history = .client id write.cell s.clock :: s.history)

theorem Effect.same (hout : s'.outstanding = s.outstanding)
    (hpend : s'.pending = s.pending) (hhistory : s'.history = s.history) : s.Effect label s' :=
  .quiet (.of_eq hout hpend) hhistory

theorem effect_fetchDelta (answer : Option (CatchUpSource shardOf)) :
    s.Effect (.fetchDelta answer) (s.step (.fetchDelta answer)) := by
  unfold step
  dsimp only
  split
  · next shard fromSeq hphase =>
    have hshard : shard ∈ s.outstanding := by simp [outstanding, hphase]
    split
    · next source =>
      cases hanswer : source.exportDelta shard fromSeq with
      | upToDate => exact .quiet (.close shard) rfl
      | tooOld => exact .same (by simp [receiveDelta, outstanding, hphase]) (by simp [receiveDelta, pending, hphase]) rfl
      | incremental delta =>
        refine .quiet (.fetch hshard ?_) rfl
        intro issued hissued
        obtain ⟨entry, hentry, rfl⟩ := mem_map.mp hissued
        exact CatchUpSource.shardOf_of_exportDelta hanswer entry hentry
    · exact .quiet (.close shard) rfl
  · exact .same rfl rfl rfl

theorem effect_fetchShard (answer : Option (CatchUpSource shardOf)) :
    s.Effect (.fetchShard answer) (s.step (.fetchShard answer)) := by
  unfold step
  dsimp only
  split
  · next shard hphase =>
    have hshard : shard ∈ s.outstanding := by simp [outstanding, hphase]
    split
    · exact .quiet (.fetch hshard CatchUpSource.shardOf_of_exportShard) rfl
    · exact .quiet (.close shard) rfl
  · exact .same rfl rfl rfl

theorem effect_replay (ok : Bool) :
    s.Effect (.replay ok : FailoverStep shardOf) (s.step (.replay ok : FailoverStep shardOf)) := by
  unfold step
  dsimp only
  split
  · next shard ops hphase =>
    have hpending : s.pending = ops ++ s.late := by simp [pending, hphase]
    unfold replayNext
    split
    · exact .quiet (.close shard) rfl
    · next issued rest =>
      split
      · exact .quiet (.close shard) rfl
      · refine .replayed issued ⟨?_, ?_⟩ (by simp [hpending]) rfl
        · exact fun _ hother => mem_outstanding_of_mem_targets hother
        · intro other hother
          left
          rw [hpending]
          exact mem_cons_of_mem issued hother
      · exact .quiet (.close shard) rfl
  · exact .same rfl rfl rfl

theorem effect_step (label : FailoverStep shardOf) : s.Effect label (s.step label) := by
  cases label with
  | fetchDelta answer => exact effect_fetchDelta answer
  | fetchShard answer => exact effect_fetchShard answer
  | replay ok => exact effect_replay ok
  | timeout =>
    unfold step
    dsimp only
    split
    · next shard issued rest hphase =>
      refine .quiet ⟨fun _ hother => mem_outstanding_of_mem_targets hother, fun other hother => .inl ?_⟩ rfl
      rw [pending, hphase]
      obtain rfl | hlate := mem_cons.mp hother
      · exact mem_cons_self
      · exact mem_append_right _ hlate
    · exact .same rfl rfl rfl
  | late i =>
    unfold step
    dsimp only
    split
    · next issued hlate =>
      refine .replayed issued ⟨fun _ hother => hother, fun other hother => .inl ?_⟩
        (mem_append_right _ (mem_of_getElem? hlate)) rfl
      exact (mem_append.mp hother).elim (mem_append_left _) fun h => mem_append_right _ (mem_of_mem_eraseIdx h)
    · exact .same rfl rfl rfl
  | setProperty id ok =>
    unfold step
    dsimp only
    split
    · next write hclient =>
      split
      · next hok => exact .client id write (.of_eq rfl rfl) (fun hspared => hspared write hclient hok) rfl
      · exact .same rfl rfl rfl
    · exact .same rfl rfl rfl
  | forwarded id write ok =>
    unfold step
    dsimp only
    split
    · next hclient =>
      split
      · next hok => exact .client id write (.of_eq rfl rfl) (fun hspared => hspared hclient hok) rfl
      · exact .same rfl rfl rfl
    · exact .same rfl rfl rfl
  | update | publish | readHighWater | raise | lower | check | replicate =>
    -- A new phase has the same shards outstanding and the same operations pending.
    unfold step
    dsimp only
    repeat' split
    all_goals first
      | exact .same rfl rfl rfl
      | exact .same (by simp [outstanding, *]) (by simp [pending, *]) rfl

/-! ### Runs -/

/-- No operation of the catch-up has set what a client had written, and none will. -/
structure Safe (shardOf : NexoraId → ShardId) (s : PromotedOwner) : Prop where
  past : s.history.Pairwise fun later earlier =>
    ∀ issued id cell time, later = .catchUp issued → earlier = .client id cell time → issued.op.sets ≠ some cell
  ahead : ∀ id cell time, .client id cell time ∈ s.history → s.Settled shardOf cell

theorem Safe.step (h : s.Safe shardOf) (hlabel : s.Spared label) : (s.step label).Safe shardOf := by
  cases s.effect_step label with
  | quiet hahead hhistory =>
    constructor
    · rw [hhistory]
      exact h.past
    · intro id cell time hmem
      rw [hhistory] at hmem
      exact (h.ahead id cell time hmem).ahead hahead
  | replayed issued hahead hpending hhistory =>
    constructor
    · rw [hhistory]
      refine pairwise_cons.mpr ⟨?_, h.past⟩
      intro earlier hearlier issued' id cell time hlater heq
      cases hlater
      subst heq
      exact (h.ahead id cell time hearlier).free issued hpending
    · intro id cell time hmem
      rw [hhistory] at hmem
      have hold := mem_of_ne_of_mem (fun heq => by cases heq) hmem
      exact (h.ahead id cell time hold).ahead hahead
  | client id write hahead hspared hhistory =>
    constructor
    · rw [hhistory]
      refine pairwise_cons.mpr ⟨?_, h.past⟩
      intro earlier _ issued id' cell time hlater
      cases hlater
    · intro id' cell time hmem
      rw [hhistory] at hmem
      obtain heq | hold := mem_cons.mp hmem
      · cases heq
        exact (hspared hlabel).ahead hahead
      · exact (h.ahead id' cell time hold).ahead hahead

theorem Safe.keepsWrites (h : s.Safe shardOf) : s.KeepsWrites := by
  refine h.past.imp ?_
  intro later earlier hpast hreplaces
  obtain ⟨issued, id, cell, time, hlater, hearlier, -, hsets, -⟩ := hreplaces
  exact hpast issued id cell time hlater hearlier hsets

/-- **Clients' writes survive the catch-up** in every run in which each of them is executed on a
property that the catch-up is through with. -/
theorem keepsWrites_of_along (hstart : s.history = []) {labels : List (FailoverStep shardOf)}
    (halong : Along step Spared s labels) : (run step s labels).KeepsWrites := by
  have hsafe : s.Safe shardOf := by
    constructor
    · rw [hstart]
      exact List.Pairwise.nil
    · intro id cell time hmem
      rw [hstart] at hmem
      exact absurd hmem not_mem_nil
  exact (run_invariant (fun _ _ hs hlabel => hs.step hlabel) hsafe halong).keepsWrites

/-! ### A late delta -/

abbrev oneShard : NexoraId → ShardId := fun _ => 0

def color (value : Bool) : ClientWrite := ⟨⟨[1]⟩, "color", .bool value⟩

def missed : ShardReplicationLog Issued :=
  ((ShardReplicationLog.new 16).recordReplica 0 1 ⟨(color false).op, 0⟩).1

private theorem logged_missed (log : ShardReplicationLog Issued) (hlog : log ∈ some missed)
    (shard : ShardId) (entry : ReplicationSeq × Issued)
    (hentry : entry ∈ (log.shardLog shard).entries) (cell : Cell) (_ : cell ∈ entry.2.op.sets) :
    oneShard cell.1 = shard := by
  cases hlog
  by_contra hshard
  have hother : missed.shardLog shard = (new 16).shardLog shard :=
    ((new 16).shardLog_record (.recordReplica 0 1 (Issued.mk (color false).op 0)) shard).trans (if_neg hshard)
  rw [hother] at hentry
  exact absurd hentry not_mem_nil

def replica : CatchUpSource oneShard := ⟨some missed, ⟨[], []⟩, logged_missed⟩

def ownedBy (owner : NodeName) (replicas : List NodeName) : ShardMap where
  version := 1
  totalShards := 1
  assignments := Table.empty.put 0 { owner := owner, replicas := replicas, epoch := 1, writable := true }
  localNode := "b"

def promoted : PromotedOwner where
  map := ownedBy "a" ["b", "c"]
  barrier := .new
  log := .new 16
  targets := [0]
  phase := .failingOver
  clients := fun _ => .idle
  clock := 1
  late := []
  history := []

/-- A write while the barrier is up is refused, and one after it has been lowered stays. -/
theorem keepsWrites_write_after_lower :
    (run step promoted [.publish (ownedBy "b" ["c"]), .readHighWater, .raise, .fetchDelta (some replica), .check 1 (color true),
      .replay true, .replay true, .lower, .check 2 (color true), .setProperty 2 true, .replicate 2 none]).KeepsWrites := by
  have hstart : promoted.history = [] := rfl
  refine keepsWrites_of_along hstart ⟨trivial, trivial, trivial, trivial, trivial, trivial, trivial, trivial, trivial, ?_,
    trivial, trivial⟩
  intro write hchecked _
  exact ⟨not_mem_nil, fun _ hissued => absurd hissued not_mem_nil⟩

/-- A write between the publication of the map and the barrier is acknowledged, and then replaced by
the missed one. -/
theorem not_keepsWrites_write_before_raise :
    ¬ (run step promoted [.publish (ownedBy "b" ["c"]), .check 1 (color true), .setProperty 1 true, .replicate 1 none,
      .readHighWater, .raise, .fetchDelta (some replica), .replay true]).KeepsWrites := by
  intro h
  have hpair := (pairwise_cons.mp h).1 _ mem_cons_self
  exact hpair ⟨_, 1, _, 1, rfl, rfl, rfl, rfl, by decide⟩

end PromotedOwner
end Nexora.Cluster
