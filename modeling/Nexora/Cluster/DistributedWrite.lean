import Nexora.Cluster.GraphServiceAdapter

/-!
# Distributed writes and their replication

A write query is run by every owner on its whole graph
(`nexora-zenoh/src/distributed_query_with_replication.rs`). It is then sent to the followers, which
execute simple mutations only and turn it down; that the replication has failed is only logged.
-/

namespace Nexora.Cluster
open Lib List

structure WritePlan where
  ownerQuery : String

def writeStatColumns : List String :=
  ["nodes_created", "nodes_deleted", "relationships_created", "relationships_deleted",
    "properties_set", "properties_removed",
    "labels_added", "labels_removed"]

/-- The nodes of a cluster, and the router of the one that coordinates the write. -/
structure WriteCluster (G : Type) where
  shardMap : ShardMap
  remoteClient : Bool
  replicaWriter : Option ReplicaWriter
  nodes : NodeName → GraphServiceAdapter G

/-- What happens during a write: what the run of the query makes of an owner's graph and what the
coordinator hears of it; and in the replication of a shard, whose circuit breaker is open, who is
reached, whose graph service fails, and how many answers come in time. -/
structure WriteEvents (G : Type) where
  execute : String → NodeName → G → G × Except RouterError GraphResult
  breakerOpen : Nat → NodeName → Bool
  reaches : Nat → NodeName → Bool
  fault : Nat → NodeName → Option String
  heard : Nat → Nat

structure DebugTexts where
  operation : GraphOperation → String
  result : GraphResult → String

/-! ### Replication -/

structure Replication (G : Type) where
  writer : ReplicaWriter
  nodes : NodeName → GraphServiceAdapter G

section
variable {G : Type} (calls : GraphCalls G) (texts : DebugTexts) (events : WriteEvents G)

namespace Replication

def quorumWrite (s : Replication G) (shard : Nat) (epoch : OwnerEpoch) (op : GraphOperation) :
    Replication G × Except RouterError WriteStatus :=
  let write : FencedWrite := ⟨Fin.ofNat (2 ^ 64) shard, epoch, Fin.ofNat (2 ^ 64) (s.writer.nextSeq shard), op⟩
  let handled := fun node => (s.nodes node).handle calls texts.operation ⟨write, events.fault shard node⟩
  let outcome := fun node =>
    if events.breakerOpen shard node then FollowerOutcome.skipped
    else
      match events.reaches shard node, (handled node).2 with
      | true, .ok _ => .succeeded
      | _, _ => .failed
  let call : QuorumWrite := ⟨shard, false, outcome, events.heard shard⟩
  let (writer, status) := s.writer.quorumWrite call
  let nodes := fun node =>
    if node ∈ s.writer.sentTo call ∧ events.reaches shard node then (handled node).1 else s.nodes node
  (⟨writer, nodes⟩, status)

/-- The first shard whose replication fails ends it. -/
def replicateOwnerWrite (op : GraphOperation) (s : Replication G) :
    List (Nat × OwnedShard) → Replication G × Except RouterError Unit
  | [] => (s, .ok ())
  | (shard, assignment) :: shards =>
    let (s, status) := s.quorumWrite calls texts events shard assignment.epoch op
    match status with
    | .ok _ => replicateOwnerWrite op s shards
    | .error error => (s, .error error)

end Replication

/-! ### The write -/

def distinctOwners (map : ShardMap) : List NodeName :=
  sortedDistinct (map.assignments.rows.map fun row => row.2.owner)

def asI64 : Json → Option Int
  | .int n => if -2 ^ 63 ≤ n ∧ n < 2 ^ 63 then some n else none
  | _ => none

def addRow : List Int → List Json → List Int
  | total :: totals, cell :: cells => (total + (asI64 cell).getD 0).bmod (2 ^ 64) :: addRow totals cells
  | totals, _ => totals

def sumStats :
    List Int → List (NodeName × Except RouterError GraphResult) → Except RouterError (List Int)
  | totals, [] => .ok totals
  | totals, (owner, result) :: results =>
    match result with
    | .ok (.cypherRows _ rows) => sumStats (addRow totals (rows.headD [])) results
    | .ok other => .error (.remote ("owner " ++ owner ++ " returned non-stat write result: " ++ texts.result other))
    | .error error => .error (.remote ("owner " ++ owner ++ " write failed: " ++ error.text ++ " (refusing partial write)"))

namespace WriteCluster
variable (plan : WritePlan) (c : WriteCluster G)

def graph (node : NodeName) : G := (c.nodes node).graph

/-- The query at one owner, and its replication. That the replication fails is not reported. -/
def runOwner (owner : NodeName) : WriteCluster G × Except RouterError GraphResult :=
  if c.remoteClient then
    let (graph, result) := events.execute plan.ownerQuery owner (c.graph owner)
    let nodes := Function.update c.nodes owner { c.nodes owner with graph := graph }
    match result, c.replicaWriter with
    | .ok _, some writer =>
      let owned := c.shardMap.assignments.rows.filter fun row => row.2.owner = owner
      let s := (Replication.replicateOwnerWrite calls texts events (.executeCypher plan.ownerQuery) ⟨writer, nodes⟩ owned).1
      ({ c with replicaWriter := some s.writer, nodes := s.nodes }, result)
    | _, _ => ({ c with nodes := nodes }, result)
  else (c, .error (.nodeNotFound "router has no remote client"))

/-- The tasks of the owners. They run at the same time, but each of them changes only the graph of
its own owner. -/
def runOwners (c : WriteCluster G) :
    List NodeName → WriteCluster G × List (NodeName × Except RouterError GraphResult)
  | [] => (c, [])
  | owner :: owners =>
    let (c, result) := c.runOwner calls texts events plan owner
    let (c, results) := runOwners c owners
    (c, (owner, result) :: results)

def executeWriteWithReplication :
    WriteCluster G × Except RouterError (List String × List (List Json)) :=
  let owners := distinctOwners c.shardMap
  if owners = [] then (c, .error (.nodeNotFound "no shard owners"))
  else
    let (c, results) := c.runOwners calls texts events plan owners
    let totals := sumStats texts (writeStatColumns.map fun _ => 0) results
    (c, totals.map fun totals => (writeStatColumns, [totals.map Json.int]))

end WriteCluster

/-! ### A majority that has the change -/

namespace WriteCluster

def ownRun (plan : WritePlan) (c : WriteCluster G) (node : NodeName) :
    G × Except RouterError GraphResult :=
  if c.remoteClient then events.execute plan.ownerQuery node (c.graph node)
  else (c.graph node, .error (.nodeNotFound "router has no remote client"))

end WriteCluster
end
section
variable {G C : Type} (shardOf : NexoraId → Nat) (content : G → NexoraId → C)

/-- A node of the shard that the write has changed on the shard's owner. -/
def ChangedOn (shard : Nat) (before after : G) (qid : NexoraId) : Prop :=
  shardOf qid = shard ∧ content after qid ≠ content before qid

def OnMajority (assignment : OwnedShard) (holds : NodeName → Prop) : Prop :=
  ∃ holders ⊆ (assignment.owner :: assignment.replicas).toFinset,
    (assignment.owner :: assignment.replicas).toFinset.card < 2 * holders.card ∧ ∀ node ∈ holders, holds node

end

namespace WriteCluster
variable {G C : Type} (shardOf : NexoraId → Nat) (content : G → NexoraId → C) (calls : GraphCalls G)
    (texts : DebugTexts)
  (events : WriteEvents G) (plan : WritePlan) (c : WriteCluster G)

/-- **A write that is reported as done is on a majority**: for every shard that it has changed on
the owner, more than half of the nodes of the shard have the change. -/
def Replicated : Prop :=
  let (after, answer) := c.executeWriteWithReplication calls texts events plan
  (∃ stats, answer = .ok stats) → ∀ shard a, c.shardMap.get shard = some a →
    (∃ qid, ChangedOn shardOf content shard (c.graph a.owner) (after.graph a.owner) qid) →
    OnMajority a fun node => ∀ qid, ChangedOn shardOf content shard (c.graph a.owner) (after.graph a.owner) qid →
      content (after.graph node) qid = content (after.graph a.owner) qid

/-- A node comes by the change of a shard without being sent anything: it is an owner itself, and
its own run of the query gives it what the run of the shard's owner gives to that one; or it is
none, and has had that before. -/
def ComesByItself (shard : Nat) (owner node : NodeName) : Prop :=
  ∀ qid, ChangedOn shardOf content shard (c.graph owner) (c.ownRun events plan owner).1 qid →
    content (if node ∈ distinctOwners c.shardMap then (c.ownRun events plan node).1 else c.graph node) qid =
      content (c.ownRun events plan owner).1 qid

def OwnersSucceed : Prop :=
  ∀ owner ∈ distinctOwners c.shardMap, ∃ columns rows, (c.ownRun events plan owner).2 = .ok (.cypherRows columns rows)

/-- Where all owners succeed, the nodes that come by the change of a shard themselves are more than
half of its nodes. -/
def SelfReplicating : Prop :=
  c.OwnersSucceed events plan → ∀ shard a, c.shardMap.get shard = some a →
    (∃ qid, ChangedOn shardOf content shard (c.graph a.owner) (c.ownRun events plan a.owner).1 qid) →
    OnMajority a (c.ComesByItself shardOf content events plan shard a.owner)

end WriteCluster

/-! ### Replication leaves the graphs alone -/

section
variable {G : Type} {calls : GraphCalls G} {texts : DebugTexts} {events : WriteEvents G}
    {op : GraphOperation}

namespace Replication

theorem graph_quorumWrite (hop : op.isMutation = false) (s : Replication G) (shard : Nat)
    (epoch : OwnerEpoch) (node : NodeName) :
    ((s.quorumWrite calls texts events shard epoch op).1.nodes node).graph = (s.nodes node).graph := by
  unfold quorumWrite
  dsimp only
  split
  · apply And.left
    apply GraphServiceAdapter.handle_of_not
    rintro ⟨-, hmutation, -⟩
    exact absurd (hop.symm.trans hmutation) Bool.false_ne_true
  · rfl

theorem graph_replicateOwnerWrite (hop : op.isMutation = false) (s : Replication G)
    (shards : List (Nat × OwnedShard)) (node : NodeName) :
    ((replicateOwnerWrite calls texts events op s shards).1.nodes node).graph = (s.nodes node).graph := by
  induction shards generalizing s with
  | nil => rfl
  | cons row shards ih =>
    unfold replicateOwnerWrite
    dsimp only
    split
    · rw [ih, graph_quorumWrite hop]
    · exact graph_quorumWrite hop s row.1 row.2.epoch node

end Replication

namespace WriteCluster
variable {plan : WritePlan} {c : WriteCluster G}

theorem remoteClient_runOwner (owner : NodeName) :
    (c.runOwner calls texts events plan owner).1.remoteClient = c.remoteClient := by
  unfold runOwner
  dsimp only
  split
  · split <;> rfl
  · rfl

theorem snd_runOwner (owner : NodeName) :
    (c.runOwner calls texts events plan owner).2 = (c.ownRun events plan owner).2 := by
  unfold runOwner ownRun
  dsimp only
  split
  · split <;> rfl
  · rfl

theorem graph_runOwner (owner node : NodeName) :
    (c.runOwner calls texts events plan owner).1.graph node =
      if node = owner then (c.ownRun events plan owner).1 else c.graph node := by
  have hupdate : ∀ graph : G,
      (Function.update c.nodes owner { c.nodes owner with graph := graph } node).graph =
      if node = owner then graph else c.graph node := by
    intro graph
    by_cases heq : node = owner
    · rw [heq, Function.update_self, if_pos rfl]
    · rw [Function.update_of_ne heq, if_neg heq]
      rfl
  unfold runOwner ownRun
  dsimp only
  split
  · split
    · exact (Replication.graph_replicateOwnerWrite rfl _ _ node).trans (hupdate _)
    · exact hupdate _
  · split
    · next heq => rw [heq]
    · rfl

theorem ownRun_runOwner {owner node : NodeName} (hne : node ≠ owner) :
    (c.runOwner calls texts events plan owner).1.ownRun events plan node = c.ownRun events plan node := by
  unfold ownRun
  rw [remoteClient_runOwner, graph_runOwner, if_neg hne]

theorem runOwners_eq {owners : List NodeName} (hnodup : owners.Nodup) (c : WriteCluster G) :
    (c.runOwners calls texts events plan owners).2 = (owners.map fun owner => (owner, (c.ownRun events plan owner).2)) ∧
      ∀ node, (c.runOwners calls texts events plan owners).1.graph node =
        if node ∈ owners then (c.ownRun events plan node).1 else c.graph node := by
  induction owners generalizing c with
  | nil => exact ⟨rfl, fun _ => rfl⟩
  | cons owner owners ih =>
    obtain ⟨howner, hrest⟩ := nodup_cons.mp hnodup
    obtain ⟨hresults, hgraphs⟩ := ih hrest (c.runOwner calls texts events plan owner).1
    have hothers : ∀ node ∈ owners,
        (c.runOwner calls texts events plan owner).1.ownRun events plan node = c.ownRun events plan node :=
      fun node hnode => ownRun_runOwner fun heq => howner (heq ▸ hnode)
    constructor
    · unfold runOwners
      dsimp only
      rw [hresults, snd_runOwner, map_cons]
      congr 1
      apply map_congr_left
      intro node hnode
      rw [hothers node hnode]
    · intro node
      unfold runOwners
      dsimp only
      rw [hgraphs]
      by_cases hnode : node ∈ owners
      · rw [if_pos hnode, if_pos (mem_cons_of_mem owner hnode), hothers node hnode]
      · rw [if_neg hnode, graph_runOwner]
        by_cases heq : node = owner
        · rw [if_pos heq, if_pos (heq ▸ mem_cons_self), heq]
        · rw [if_neg heq, if_neg fun hmem => (mem_cons.mp hmem).elim heq hnode]

theorem exists_sumStats_iff (totals : List Int)
    (results : List (NodeName × Except RouterError GraphResult)) :
    (∃ sums, sumStats texts totals results = .ok sums) ↔
      ∀ entry ∈ results, ∃ columns rows, entry.2 = .ok (.cypherRows columns rows) := by
  induction results generalizing totals with
  | nil => exact iff_of_true ⟨totals, rfl⟩ fun _ hentry => absurd hentry not_mem_nil
  | cons entry results ih =>
    obtain ⟨owner, result⟩ := entry
    rw [forall_mem_cons]
    unfold sumStats
    split
    · next columns rows => exact (ih _).trans (and_iff_right ⟨columns, rows, rfl⟩).symm
    · next other hother =>
      refine iff_of_false (fun ⟨_, hsums⟩ => by cases hsums) ?_
      rintro ⟨⟨columns, rows, heq⟩, -⟩
      cases heq
      exact hother columns rows rfl
    · refine iff_of_false (fun ⟨_, hsums⟩ => by cases hsums) ?_
      rintro ⟨⟨columns, rows, heq⟩, -⟩
      cases heq

theorem nodup_distinctOwners (map : ShardMap) : (distinctOwners map).Nodup := nodup_sortedDistinct _

theorem owner_mem_distinctOwners {map : ShardMap} {shard : Nat} {a : OwnedShard}
    (h : map.get shard = some a) :
    a.owner ∈ distinctOwners map :=
  mem_sortedDistinct.mpr (mem_map.mpr ⟨(shard, a), Table.find?_eq_some_iff.mp h, rfl⟩)

theorem graph_executeWriteWithReplication (node : NodeName) :
    (c.executeWriteWithReplication calls texts events plan).1.graph node =
      if node ∈ distinctOwners c.shardMap then (c.ownRun events plan node).1 else c.graph node := by
  unfold executeWriteWithReplication
  dsimp only
  split
  · next hempty => rw [hempty, if_neg not_mem_nil]
  · exact (runOwners_eq (nodup_distinctOwners c.shardMap) c).2 node

/-- **When the write is reported as done.** -/
theorem exists_stats_iff :
    (∃ stats, (c.executeWriteWithReplication calls texts events plan).2 = .ok stats) ↔
      distinctOwners c.shardMap ≠ [] ∧ c.OwnersSucceed events plan := by
  unfold executeWriteWithReplication
  dsimp only
  split
  · next hempty => exact iff_of_false (fun ⟨_, hstats⟩ => by cases hstats) fun h => h.1 hempty
  · next hsome =>
    rw [and_iff_right hsome, (runOwners_eq (nodup_distinctOwners c.shardMap) c).1]
    have hsums := @exists_sumStats_iff texts (writeStatColumns.map fun _ => 0)
      ((distinctOwners c.shardMap).map fun owner => (owner, (c.ownRun events plan owner).2))
    rw [forall_mem_map] at hsums
    refine Iff.trans ?_ hsums
    cases sumStats texts (writeStatColumns.map fun _ => 0) _ with
    | ok sums => exact iff_of_true ⟨_, rfl⟩ ⟨sums, rfl⟩
    | error error => exact iff_of_false (fun ⟨_, hstats⟩ => by cases hstats) fun ⟨_, hsum⟩ => by cases hsum

/-- **Distributed writes are on a majority** exactly when more than half of the nodes of each shard
come by the change themselves: the replication adds nothing. -/
theorem replicated_iff_selfReplicating {C : Type} (shardOf : NexoraId → Nat)
    (content : G → NexoraId → C) (calls : GraphCalls G) (texts : DebugTexts)
    (events : WriteEvents G) (plan : WritePlan) (c : WriteCluster G) :
    c.Replicated shardOf content calls texts events plan ↔ c.SelfReplicating shardOf content events plan := by
  unfold Replicated
  dsimp only
  simp only [exists_stats_iff, graph_executeWriteWithReplication]
  constructor
  · intro h hsucceed shard a hget hchanged
    have howner := owner_mem_distinctOwners hget
    have hmajority := h ⟨ne_nil_of_mem howner, hsucceed⟩ shard a hget
    rw [if_pos howner] at hmajority
    exact hmajority hchanged
  · intro h ⟨_, hsucceed⟩ shard a hget
    rw [if_pos (owner_mem_distinctOwners hget)]
    exact h hsucceed shard a hget

end WriteCluster
end

/-! ### A query on three nodes in step -/

namespace WriteCluster

theorem followers_b_c : ["b", "c"].Nodup ∧ "a" ∉ ["b", "c"] := by decide

def inStep : WriteCluster Nat where
  shardMap :=
    { version := 1
      totalShards := 1
      assignments := Table.empty.put 0 { owner := "a", replicas := ["b", "c"], epoch := 1, writable := true }
      localNode := "a" }
  remoteClient := true
  replicaWriter := some
    { replicaSets := fun _ => some ⟨"a", ["b", "c"], followers_b_c.1, followers_b_c.2⟩
      writeConcern := .majority
      replicationLog := some fun _ => 0
      progress := none
      taken := ∅ }
  nodes := fun _ => ⟨0, none, some (.new 16)⟩

def increment : WriteEvents Nat where
  execute := fun _ _ graph => (graph + 1, .ok (.cypherRows writeStatColumns [[.int 0]]))
  breakerOpen := fun _ _ => false
  reaches := fun _ _ => true
  fault := fun _ _ => none
  heard := fun _ => 2

def addOne : WritePlan := ⟨"MATCH (n) SET n.x = n.x + 1"⟩

def noTexts : DebugTexts := ⟨fun _ => "", fun _ => ""⟩

theorem mem_distinctOwners_inStep {node : NodeName} :
    node ∈ distinctOwners inStep.shardMap ↔ node = "a" :=
  mem_sortedDistinct.trans mem_singleton

theorem graph_increment (node : NodeName) :
    (inStep.executeWriteWithReplication Follower.countCalls noTexts increment addOne).1.graph node =
      if node = "a" then 1 else 0 := by
  rw [graph_executeWriteWithReplication]
  simp only [mem_distinctOwners_inStep]
  rfl

/-- The query is reported as done, and neither replica has run it. -/
theorem not_replicated_increment :
    ¬ inStep.Replicated (fun _ => 0) (fun graph _ => graph) Follower.countCalls noTexts increment addOne := by
  intro h
  unfold Replicated at h
  dsimp only at h
  simp only [exists_stats_iff, graph_increment] at h
  have hsucceed : inStep.OwnersSucceed increment addOne :=
    fun _ _ => ⟨writeStatColumns, [[.int 0]], rfl⟩
  have hsome : distinctOwners inStep.shardMap ≠ [] :=
    ne_nil_of_mem (mem_distinctOwners_inStep.mpr rfl)
  have hchanged : ChangedOn (fun _ => 0) (fun graph _ => graph) 0 (inStep.graph "a") 1 ⟨[1]⟩ :=
    ⟨rfl, Nat.one_ne_zero⟩
  obtain ⟨holders, -, hcard, hholds⟩ := h ⟨hsome, hsucceed⟩ 0
    { owner := "a", replicas := ["b", "c"], epoch := 1, writable := true } rfl ⟨⟨[1]⟩, hchanged⟩
  have hsub : holders ⊆ {"a"} := by
    intro node hnode
    have hsame : (if node = "a" then 1 else 0) = 1 := hholds node hnode ⟨[1]⟩ hchanged
    by_contra hne
    rw [if_neg fun heq => hne (Finset.mem_singleton.mpr heq)] at hsame
    exact absurd hsame Nat.zero_ne_one
  have hone := Finset.card_le_card hsub
  have hthree : ["a", "b", "c"].toFinset.card = 3 := by decide
  rw [Finset.card_singleton] at hone
  rw [hthree] at hcard
  omega

end WriteCluster
end Nexora.Cluster
