import Nexora.Cluster.StateTransfer
import Nexora.Graph.Service
import Nexora.Lib.Double

/-!
# What a transfer keeps of a shard

A snapshot of a shard holds the properties of its nodes as JSON and their outgoing edges
(`graph_service_adapter.rs`, `export_shard`). Labels, tombstones and the properties of edges have no
place in it, and values of which JSON knows nothing come back as strings.
-/

namespace Nexora.Transfer
open Lib Nexora.Cluster List NodeState Finmap GraphOperation Finset Option GraphService PropertyValue

/-! ### Values as JSON -/

section
variable (debug : PropertyValue → String)
mutual

/-- `debug` is the text of a value in Rust's debugging format. -/
def propertyToJson : PropertyValue → Json
  | .null => .null
  | .boolean b => .bool b
  | .integer i => .int i.toInt
  | .float x => if x.isFinite then .float x else .null
  | .string s => .str s
  | .bytes b => .str (toHex ⟨b⟩)
  | .list l => .arr (itemsToJson l)
  | .map m => .obj (entriesToJson m)
  | other => .str (debug other)

def itemsToJson : List PropertyValue → List Json
  | [] => []
  | v :: rest => propertyToJson v :: itemsToJson rest

def entriesToJson : List (String × PropertyValue) → List (String × Json)
  | [] => []
  | (key, v) :: rest => (key, propertyToJson v) :: entriesToJson rest

end
end
mutual

/-- The fields of an object come in the order of their keys, which a map keeps. -/
def jsonToProperty : Json → PropertyValue
  | .null => .null
  | .bool b => .boolean b
  | .int n => if -2 ^ 63 ≤ n ∧ n < 2 ^ 63 then .integer (Int64.ofInt n) else .float (F64.ofInt n)
  | .float x => .float x
  | .str s => .string s
  | .arr items => .list (jsonToItems items)
  | .obj fields => .map (jsonToEntries fields)

def jsonToItems : List Json → List PropertyValue
  | [] => []
  | j :: rest => jsonToProperty j :: jsonToItems rest

def jsonToEntries : List (String × Json) → List (String × PropertyValue)
  | [] => []
  | (key, j) :: rest => (key, jsonToProperty j) :: jsonToEntries rest

end
mutual

/-- Made of what JSON has: nulls, booleans, integers, finite floats and strings, in lists and
maps. -/
def Plain : PropertyValue → Prop
  | .null | .boolean _ | .integer _ | .string _ => True
  | .float x => x.isFinite
  | .list l => PlainItems l
  | .map m => PlainEntries m
  | _ => False

def PlainItems : List PropertyValue → Prop
  | [] => True
  | v :: rest => Plain v ∧ PlainItems rest

def PlainEntries : List (String × PropertyValue) → Prop
  | [] => True
  | (_, v) :: rest => Plain v ∧ PlainEntries rest

end

theorem jsonToProperty_toInt (i : Int64) : jsonToProperty (.int i.toInt) = .integer i := by
  have hlow := i.le_toInt
  have hhigh := i.toInt_lt
  rw [jsonToProperty, if_pos ⟨hlow, hhigh⟩, Int64.ofInt_toInt]

section
variable (debug : PropertyValue → String)
mutual

/-- **The values that come back** as they were are the plain ones. -/
theorem jsonToProperty_propertyToJson (v : PropertyValue) :
    jsonToProperty (propertyToJson debug v) = v ↔ Plain v := by
  match v with
  | .null | .boolean _ | .string _ => simp [propertyToJson, jsonToProperty, Plain]
  | .integer i => simp [propertyToJson, jsonToProperty_toInt, Plain]
  | .float x =>
    rw [propertyToJson, Plain]
    by_cases h : x.isFinite = true
    · simp [h, jsonToProperty]
    · simp [h, jsonToProperty]
  | .list l => rw [propertyToJson, jsonToProperty, Plain, list.injEq, jsonToItems_itemsToJson l]
  | .map m => rw [propertyToJson, jsonToProperty, Plain, map.injEq, jsonToEntries_entriesToJson m]
  | .bytes _ | .node _ | .relationship _ | .path _ _ | .date _ | .localDateTime _ | .zonedDateTime _
    | .duration _ | .point _
  | .blobRef _ => simp [propertyToJson, jsonToProperty, Plain]

theorem jsonToItems_itemsToJson (l : List PropertyValue) :
    jsonToItems (itemsToJson debug l) = l ↔ PlainItems l := by
  match l with
  | [] => simp [itemsToJson, jsonToItems, PlainItems]
  | v :: rest =>
    rw [itemsToJson, jsonToItems, PlainItems, cons.injEq, jsonToProperty_propertyToJson v,
      jsonToItems_itemsToJson rest]

theorem jsonToEntries_entriesToJson (m : List (String × PropertyValue)) :
    jsonToEntries (entriesToJson debug m) = m ↔ PlainEntries m := by
  match m with
  | [] => simp [entriesToJson, jsonToEntries, PlainEntries]
  | (key, v) :: rest =>
    rw [entriesToJson, jsonToEntries, PlainEntries, cons.injEq, Prod.mk.injEq, jsonToProperty_propertyToJson v,
      jsonToEntries_entriesToJson rest]
    exact and_congr_left' (and_iff_right rfl)

end
end

/-! ### Graphs -/

structure GraphHost where
  service : GraphService
  ids : Finset NexoraId

def edgeDirection : String → EdgeDirection
  | "in" | "In" | "IN" => .incoming
  | _ => .out

namespace GraphHost

def empty (clock : NexoraId → EventTime) : GraphHost := ⟨.new clock, ∅⟩

def state (host : GraphHost) (qid : NexoraId) : NodeState := (host.service.nodes qid).state

/-- Nodes stay behind when they are deleted, with a tombstone. -/
def Live (host : GraphHost) (qid : NexoraId) : Prop :=
  qid ∈ host.ids ∧ (host.state qid).tombstone = none

def handle (S : Serde) (host : GraphHost) : GraphOperation → GraphHost
  | .setProperty qid key value =>
    ⟨host.service.setProperty S qid key (jsonToProperty value) true, insert qid host.ids⟩
  | .addEdge source edgeType target direction =>
    ⟨host.service.addEdge source ⟨edgeType, edgeDirection direction, target⟩ true, insert source host.ids⟩
  | _ => host

end GraphHost

/-- The answers that an export gets from the graph, in the orders in which they come. -/
structure GraphReads where
  allNodeIds : List NexoraId
  getAllProperties : NexoraId → List (Symbol × PropertyValue)
  getEdges : NexoraId → List HalfEdge

structure GraphReads.Of (reads : GraphReads) (host : GraphHost) : Prop where
  nodup_ids : reads.allNodeIds.Nodup
  ids : ∀ qid, qid ∈ reads.allNodeIds ↔ qid ∈ host.ids
  nodup_keys : ∀ qid, ((reads.getAllProperties qid).map Prod.fst).Nodup
  properties : ∀ qid key value, (key, value) ∈ reads.getAllProperties qid ↔
    (host.state qid).properties.lookup key = some value
  edges : ∀ qid edge, edge ∈ reads.getEdges qid ↔ edge ∈ (host.state qid).edges

section
variable (debug : PropertyValue → String) (shardKey : NexoraId → Nat)

def exportNode (reads : GraphReads) (qid : NexoraId) : List NodeEntry :=
  let props := reads.getAllProperties qid
  if props.isEmpty then [] else [⟨toHex qid, props.map fun entry => (entry.1, propertyToJson debug entry.2)⟩]

def exportEdges (reads : GraphReads) (qid : NexoraId) : List EdgeEntry :=
  ((reads.getEdges qid).filter fun edge => edge.direction = .out).map fun edge =>
    ⟨toHex qid, edge.edgeType, "out", toHex edge.other⟩

/-- With no shards at all the remainder panics. -/
def exportShard (reads : GraphReads) (shardId totalShards : Nat) [NeZero totalShards] :
    ShardSnapshot :=
  let ids := reads.allNodeIds.filter fun qid => shardKey qid % totalShards = shardId
  ⟨shardId, ids.flatMap (exportNode debug reads), ids.flatMap (exportEdges reads)⟩

end

/-! ### What a target has received -/

def subject : GraphOperation → Option NexoraId
  | .setProperty qid _ _ => some qid
  | .addEdge source _ _ _ => some source
  | _ => none

structure Received (ops : List GraphOperation) (host : GraphHost) : Prop where
  ids : ∀ qid, qid ∈ host.ids ↔ ∃ op ∈ ops, subject op = some qid
  labels : ∀ qid, (host.state qid).labels = ∅
  tombstone : ∀ qid, (host.state qid).tombstone = none
  edgeProperties : ∀ qid, (host.state qid).edgeProperties = ∅
  edges : ∀ qid edge, edge ∈ (host.state qid).edges ↔
    ∃ direction, .addEdge qid edge.edgeType edge.other direction ∈ ops ∧ edgeDirection direction = edge.direction
  properties : ∀ qid key value, (host.state qid).properties.lookup key = some value ↔
    ∃ json, .setProperty qid key json ∈ ops ∧ jsonToProperty json = value
  times : ∀ qid key, (∀ json, .setProperty qid key json ∉ ops) → (host.state qid).propertyTimes.lookup key = none

def SetOnce (ops : List GraphOperation) : Prop :=
  ops.Pairwise fun a b => ∀ qid key json json', a = .setProperty qid key json →
    b ≠ .setProperty qid key json'

namespace GraphHost
variable {S : Serde} {host : GraphHost}

theorem state_command (qid : NexoraId) (operation : MutationOp) (after : Indexes → Indexes)
    (qid' : NexoraId) :
    ((host.service.command qid operation true after).nodes qid').state =
      if qid' = qid then (operation.apply (host.state qid) ((host.service.nodes qid).nextEventTime + 1)).1
      else host.state qid' := by
  show (Function.update host.service.nodes qid _ qid').state = _
  by_cases h : qid' = qid
  · rw [h, Function.update_self, if_pos rfl]
    rfl
  · rw [Function.update_of_ne h, if_neg h]
    rfl

theorem state_setProperty {qid : NexoraId} {key : String}
    (h : (host.state qid).propertyTimes.lookup key = none) (json : Json) (qid' : NexoraId) :
    (host.handle S (.setProperty qid key json)).state qid' =
      if qid' = qid then
        (host.state qid).insertProperty key (jsonToProperty json) ((host.service.nodes qid).nextEventTime + 1)
      else host.state qid' := by
  unfold handle state GraphService.setProperty
  rw [state_command, MutationOp.apply, wins, h, if_pos rfl]
  rfl

theorem state_addEdge (source : NexoraId) (edgeType : String) (target : NexoraId)
    (direction : String) (qid' : NexoraId) :
    (host.handle S (.addEdge source edgeType target direction)).state qid' =
      if qid' = source then (host.state source).insertEdge ⟨edgeType, edgeDirection direction,
        target⟩ else host.state qid' := by
  unfold handle state GraphService.addEdge
  rw [state_command, MutationOp.fst_apply_addEdge]
  rfl

theorem field_ite {α : Type} (f : NodeState → α) {qid qid' : NexoraId} {s : NodeState}
    (hf : f s = f (host.state qid)) :
    f (if qid' = qid then s else host.state qid') = f (host.state qid') := by
  split
  · next heq => rw [heq, hf]
  · rfl

end GraphHost

namespace Received
open GraphHost hiding empty
variable {S : Serde} {ops : List GraphOperation} {host : GraphHost}

theorem empty (clock : NexoraId → EventTime) : Received [] (GraphHost.empty clock) where
  ids qid := by simp [GraphHost.empty]
  labels _ := rfl
  tombstone _ := rfl
  edgeProperties _ := rfl
  edges qid edge := by simp [GraphHost.empty, GraphHost.state, new, NodeTask.spawnWithFullState, NodeState.empty]
  properties qid key value := by
    simp [GraphHost.empty, GraphHost.state, new, NodeTask.spawnWithFullState, NodeState.empty]
  times _ _ _ := rfl

theorem mem_ids_handle (h : Received ops host) {op : GraphOperation} {qid : NexoraId}
    (hop : subject op = some qid) (hids : (host.handle S op).ids = insert qid host.ids)
    (qid' : NexoraId) :
    qid' ∈ (host.handle S op).ids ↔ ∃ op' ∈ ops ++ [op], subject op' = some qid' := by
  simp only [hids, Finset.mem_insert, h.ids, List.mem_append, List.mem_singleton, or_and_right,
    exists_or, exists_eq_left, hop,
    some.injEq]
  rw [or_comm, eq_comm]

theorem setProperty (h : Received ops host) {qid : NexoraId} {key : String}
    (hnew : ∀ json, .setProperty qid key json ∉ ops) (json : Json) :
    Received (ops ++ [.setProperty qid key json]) (host.handle S (.setProperty qid key json)) where
  ids := h.mem_ids_handle rfl rfl
  labels qid' := by rw [state_setProperty (h.times qid key hnew), field_ite NodeState.labels (by rfl), h.labels]
  tombstone qid' := by rw [state_setProperty (h.times qid key hnew), field_ite NodeState.tombstone (by rfl), h.tombstone]
  edgeProperties qid' := by rw [state_setProperty (h.times qid key hnew), field_ite NodeState.edgeProperties (by rfl), h.edgeProperties]
  edges qid' edge := by
    rw [state_setProperty (h.times qid key hnew), field_ite NodeState.edges (by rfl), h.edges]
    simp
  properties qid' key' value := by
    rw [state_setProperty (h.times qid key hnew)]
    by_cases hqid : qid' = qid
    · subst hqid
      rw [if_pos rfl, insertProperty]
      by_cases hkey : key' = key
      · subst hkey
        rw [lookup_insert]
        simp [hnew]
      · rw [lookup_insert_of_ne _ hkey, h.properties]
        simp [hkey]
    · rw [if_neg hqid, h.properties]
      simp [hqid]
  times qid' key' hnone := by
    rw [state_setProperty (h.times qid key hnew)]
    have hold : ∀ json', GraphOperation.setProperty qid' key' json' ∉ ops := fun json' hmem =>
      hnone json' (List.mem_append_left _ hmem)
    by_cases hqid : qid' = qid
    · subst hqid
      have hkey : key' ≠ key := fun heq => hnone json (by simp [heq])
      rw [if_pos rfl, insertProperty, lookup_insert_of_ne _ hkey]
      exact h.times _ _ hold
    · rw [if_neg hqid]
      exact h.times _ _ hold

theorem addEdge (h : Received ops host) (source : NexoraId) (edgeType : String) (target : NexoraId)
    (direction : String) :
    Received (ops ++ [.addEdge source edgeType target direction])
    (host.handle S (.addEdge source edgeType target direction)) where
  ids := h.mem_ids_handle rfl rfl
  labels qid := by rw [state_addEdge, field_ite NodeState.labels (by rfl), h.labels]
  tombstone qid := by rw [state_addEdge, field_ite NodeState.tombstone (by rfl), h.tombstone]
  edgeProperties qid := by rw [state_addEdge, field_ite NodeState.edgeProperties (by rfl), h.edgeProperties]
  edges qid edge := by
    rw [state_addEdge]
    by_cases hqid : qid = source
    · subst hqid
      rw [if_pos rfl, NodeState.insertEdge, Finset.mem_insert, h.edges]
      simp only [List.mem_append, List.mem_singleton, or_and_right, exists_or, GraphOperation.addEdge.injEq, true_and]
      rw [or_comm]
      refine or_congr_right ⟨fun heq => ?_, fun hex => ?_⟩
      · rw [heq]
        exact ⟨direction, ⟨rfl, rfl, rfl⟩, rfl⟩
      · obtain ⟨_, ⟨htype, htarget, rfl⟩, hdirection⟩ := hex
        rw [← htype, ← htarget, hdirection]
    · rw [if_neg hqid, h.edges]
      simp [hqid]
  properties qid key value := by
    rw [state_addEdge, field_ite NodeState.properties (by rfl), h.properties]
    simp
  times qid key hnone := by
    rw [state_addEdge, field_ite NodeState.propertyTimes (by rfl)]
    exact h.times qid key fun json hmem => hnone json (mem_append_left _ hmem)

theorem foldl (clock : NexoraId → EventTime) {ops : List GraphOperation}
    (hsubject : ∀ op ∈ ops, (subject op).isSome) (honce : SetOnce ops) :
    Received ops (ops.foldl (handle S) (.empty clock)) := by
  induction ops using reverseRecOn with
  | nil => exact empty clock
  | append_singleton ops op ih =>
    obtain ⟨hold, hop⟩ := forall_mem_append.mp hsubject
    obtain ⟨honce', -, hcross⟩ := pairwise_append.mp honce
    have h := ih hold honce'
    rw [foldl_append]
    have hsome := hop op (List.mem_singleton_self op)
    cases op with
    | setProperty qid key json =>
      exact h.setProperty (fun json' hmem => hcross _ hmem _ (List.mem_singleton_self _) qid key json' json rfl rfl) json
    | addEdge source edgeType target direction => exact h.addEdge (S := S) source edgeType target direction
    | _ => cases hsome

end Received

/-! ### The operations of an export -/

section
variable (debug : PropertyValue → String) (shardKey : NexoraId → Nat) (reads : GraphReads)

def nodeOps (qid : NexoraId) : List GraphOperation :=
  (reads.getAllProperties qid).map fun entry => .setProperty qid entry.1 (propertyToJson debug entry.2)

def edgeOps (qid : NexoraId) : List GraphOperation :=
  ((reads.getEdges qid).filter fun edge => edge.direction = .out).map fun edge =>
    .addEdge qid edge.edgeType edge.other "out"

def exportedOps (shardId totalShards : Nat) : List GraphOperation :=
  let ids := reads.allNodeIds.filter fun qid => shardKey qid % totalShards = shardId
  ids.flatMap (nodeOps debug reads) ++ ids.flatMap (edgeOps reads)

variable {debug shardKey reads} {shardId totalShards : Nat}

theorem mem_exportedOps_setProperty {qid : NexoraId} {key : String} {json : Json} :
    .setProperty qid key json ∈ exportedOps debug shardKey reads shardId totalShards ↔
      (qid ∈ reads.allNodeIds ∧ shardKey qid % totalShards = shardId) ∧
        ∃ value, (key, value) ∈ reads.getAllProperties qid ∧ propertyToJson debug value = json := by
  simp [exportedOps, nodeOps, edgeOps]

theorem mem_exportedOps_addEdge {source : NexoraId} {edgeType : String} {target : NexoraId}
    {direction : String} :
    .addEdge source edgeType target direction ∈ exportedOps debug shardKey reads shardId totalShards ↔
      (source ∈ reads.allNodeIds ∧ shardKey source % totalShards = shardId) ∧
        ⟨edgeType, .out, target⟩ ∈ reads.getEdges source ∧ direction = "out" := by
  simp only [exportedOps, nodeOps, edgeOps, List.mem_append, List.mem_flatMap, List.mem_filter,
    List.mem_map, decide_eq_true_eq,
    reduceCtorEq, and_false, exists_false, false_or, GraphOperation.addEdge.injEq]
  constructor
  · rintro ⟨qid, hqid, edge, ⟨hedge, hout⟩, rfl, rfl, rfl, rfl⟩
    exact ⟨hqid, hout ▸ hedge, rfl⟩
  · rintro ⟨hsource, hedge, rfl⟩
    exact ⟨source, hsource, _, ⟨hedge, rfl⟩, rfl, rfl, rfl, rfl⟩

theorem subject_of_mem_exportedOps {op : GraphOperation}
    (h : op ∈ exportedOps debug shardKey reads shardId totalShards) :
    ∃ qid, subject op = some qid ∧ qid ∈ reads.allNodeIds ∧ shardKey qid % totalShards = shardId := by
  simp only [exportedOps, nodeOps, edgeOps, List.mem_append, List.mem_flatMap, List.mem_filter, List.mem_map,
    decide_eq_true_eq] at h
  obtain ⟨qid, hqid, _, -, rfl⟩ | ⟨qid, hqid, _, -, rfl⟩ := h
  · exact ⟨qid, rfl, hqid⟩
  · exact ⟨qid, rfl, hqid⟩

theorem setOnce_exportedOps (hids : reads.allNodeIds.Nodup)
    (hkeys : ∀ qid, ((reads.getAllProperties qid).map Prod.fst).Nodup) :
    SetOnce (exportedOps debug shardKey reads shardId totalShards) := by
  have hedges : ∀ op ∈ (reads.allNodeIds.filter fun qid => shardKey qid % totalShards = shardId).flatMap (edgeOps reads),
      ∀ qid key json, op ≠ .setProperty qid key json := by
    intro op hop qid key json heq
    obtain ⟨_, -, hmem⟩ := mem_flatMap.mp hop
    obtain ⟨_, -, hadd⟩ := mem_map.mp hmem
    rw [heq] at hadd
    cases hadd
  refine pairwise_append.mpr ⟨?_, ?_, fun a _ b hb qid key _ json' _ => hedges b hb qid key json'⟩
  · refine pairwise_flatMap.mpr ⟨fun qid _ => ?_, (hids.filter _).imp fun {x y} hne a ha b hb => ?_⟩
    · -- The properties of one node have different keys.
      refine pairwise_map.mpr ((pairwise_map.mp (hkeys qid)).imp ?_)
      intro a b hne qid' key json json' ha hb
      exact hne ((setProperty.inj ha).2.1.trans (setProperty.inj hb).2.1.symm)
    · -- Those of different nodes are about different nodes.
      obtain ⟨_, -, rfl⟩ := mem_map.mp ha
      obtain ⟨_, -, rfl⟩ := mem_map.mp hb
      intro qid key json json' hx hy
      exact hne ((setProperty.inj hx).1.trans (setProperty.inj hy).1.symm)
  · exact pairwise_of_forall_mem_list fun a _ b hb qid key _ json' _ => hedges b hb qid key json'

theorem flatMap_exportNode (qid : NexoraId) :
    (exportNode debug reads qid).flatMap (fun node => (nodeItem.ops node).toOption.getD []) = nodeOps debug reads qid := by
  unfold exportNode nodeOps
  dsimp only
  split
  · next hempty => rw [List.isEmpty_iff.mp hempty]; rfl
  · rw [List.flatMap_singleton]
    simp only [nodeItem, fromHex_toHex, Except.toOption, getD_some, List.map_map]
    rfl

theorem ops_exportNode {qid : NexoraId} {node : NodeEntry} (h : node ∈ exportNode debug reads qid) :
    nodeItem.ops node = .ok ((nodeItem.ops node).toOption.getD []) := by
  unfold exportNode at h
  dsimp only at h
  split at h
  · cases h
  · rw [List.mem_singleton.mp h]
    simp only [nodeItem, fromHex_toHex, Except.toOption, getD_some]

theorem flatMap_exportEdges (qid : NexoraId) :
    (exportEdges reads qid).flatMap (fun edge => (edgeItem.ops edge).toOption.getD []) = edgeOps reads qid := by
  unfold exportEdges edgeOps
  rw [flatMap_map, map_eq_flatMap]
  refine flatMap_congr fun edge _ => ?_
  rw [ops_edge]
  rfl

/-- **The transfer** executes the exported operations on the target and returns. -/
theorem catchUpShard_exportShard [NeZero totalShards] {T : Type} {exec : T → GraphOperation → T}
    {run : TransferRun} {dir : Bool}
    (hfetched : run.fetched = .ok (exportShard debug shardKey reads shardId totalShards))
    (hdir : (if dir then run.createDir else .ok ()) = .ok ()) (hcall : ∀ i, run.call i = .done)
    (sourceNode : String) (target : T) :
    (catchUpShard exec run dir sourceNode shardId target none).1.1 =
        (exportedOps debug shardKey reads shardId totalShards).foldl exec target ∧
      ∃ answer, (catchUpShard exec run dir sourceNode shardId target none).2 = .ok answer := by
  have hnodes : ∀ node ∈ (exportShard debug shardKey reads shardId totalShards).nodes,
      nodeItem.ops node = .ok ((nodeItem.ops node).toOption.getD []) := by
    intro node hnode
    obtain ⟨qid, -, hmem⟩ := mem_flatMap.mp hnode
    exact ops_exportNode hmem
  have hedges : ∀ edge ∈ (exportShard debug shardKey reads shardId totalShards).edges,
      edgeItem.ops edge = .ok ((edgeItem.ops edge).toOption.getD []) := by
    intro edge hedge
    obtain ⟨qid, -, hmem⟩ := mem_flatMap.mp hedge
    obtain ⟨_, -, rfl⟩ := mem_map.mp hmem
    rw [ops_edge]
    rfl
  obtain ⟨htarget, hok⟩ := @catchUpShard_of_done _ exec _ _ _ hfetched hdir hcall _ hnodes _ hedges sourceNode shardId target
  refine ⟨htarget.trans ?_, _, hok⟩
  unfold exportShard exportedOps
  rw [flatMap_assoc, flatMap_assoc]
  simp only [flatMap_exportNode, flatMap_exportEdges]

end

/-! ### Fidelity -/

def outgoing (s : NodeState) : Finset HalfEdge := s.edges.filter fun edge => edge.direction = .out

def edgeProperty (s : NodeState) (edgeType : Symbol) (dst : NexoraId) (key : Symbol) :
    Option PropertyValue :=
  (s.edgeProperties.lookup (edgeType, dst)).bind fun entry => entry.lookup key

structure SameNode (s t : NodeState) : Prop where
  labels : t.labels = s.labels
  properties : t.properties = s.properties
  outgoing : outgoing t = outgoing s
  edgeProperty : edgeProperty t = edgeProperty s

/-- The target has the nodes of the shard as the source has them, and no others. -/
structure Faithful (inShard : NexoraId → Prop) (source target : GraphHost) : Prop where
  live : ∀ qid, inShard qid → (target.Live qid ↔ source.Live qid)
  same : ∀ qid, inShard qid → source.Live qid → SameNode (source.state qid) (target.state qid)
  others : ∀ qid, ¬ inShard qid → qid ∉ target.ids

def Absent (s : NodeState) : Prop := s.properties = ∅ ∧ outgoing s = ∅

/-- A node that a snapshot can hold: it occurs in it, and all it has are outgoing edges and plain
values. -/
structure Transferable (s : NodeState) : Prop where
  labels : s.labels = ∅
  plain : ∀ key value, s.properties.lookup key = some value → Plain value
  edgeProperty : ∀ edgeType dst key, edgeProperty s edgeType dst key = none
  occurs : ¬ Absent s

theorem exists_of_not_absent {s : NodeState} (h : ¬ Absent s) :
    (∃ key value, s.properties.lookup key = some value) ∨ ∃ edge ∈ s.edges, edge.direction = .out := by
  by_cases hprops : s.properties = ∅
  · have hedges : outgoing s ≠ ∅ := fun hnone => h ⟨hprops, hnone⟩
    obtain ⟨edge, hedge⟩ := nonempty_iff_ne_empty.mpr hedges
    exact .inr ⟨edge, mem_filter.mp hedge⟩
  · left
    by_contra hnone
    push Not at hnone
    refine hprops (ext_lookup fun key => ?_)
    rw [lookup_empty]
    exact eq_none_iff_forall_ne_some.mpr fun value => hnone key value

theorem Absent.lookup {s : NodeState} (h : Absent s) (key : Symbol) :
    s.properties.lookup key = none := by
  rw [h.1, lookup_empty]

theorem Absent.notMem {s : NodeState} (h : Absent s) {edge : HalfEdge}
    (hout : edge.direction = .out) : edge ∉ s.edges := by
  intro hmem
  have hfilter : edge ∈ outgoing s := mem_filter.mpr ⟨hmem, hout⟩
  rw [h.2] at hfilter
  exact notMem_empty edge hfilter

section
variable {debug : PropertyValue → String} {shardKey : NexoraId → Nat} {reads : GraphReads}
    {shardId totalShards : Nat}
  {source target : GraphHost}

section
variable (hreads : reads.Of source) (h : Received (exportedOps debug shardKey reads shardId totalShards) target)
include hreads h

theorem mem_ids_of_received (qid : NexoraId) :
    qid ∈ target.ids ↔ (qid ∈ source.ids ∧ shardKey qid % totalShards = shardId) ∧ ¬ Absent (source.state qid) := by
  rw [h.ids]
  constructor
  · rintro ⟨op, hop, hsubject⟩
    obtain ⟨qid', hsubject', hmem, hshard⟩ := subject_of_mem_exportedOps hop
    obtain rfl : qid' = qid := some.inj (hsubject'.symm.trans hsubject)
    refine ⟨⟨(hreads.ids qid').mp hmem, hshard⟩, fun habsent => ?_⟩
    cases op with
    | setProperty _ key json =>
      cases hsubject'
      obtain ⟨-, value, hvalue, -⟩ := mem_exportedOps_setProperty.mp hop
      have hlookup := (hreads.properties qid' key value).mp hvalue
      rw [habsent.lookup] at hlookup
      cases hlookup
    | addEdge _ edgeType dst direction =>
      cases hsubject'
      obtain ⟨-, hedge, -⟩ := mem_exportedOps_addEdge.mp hop
      exact habsent.notMem rfl ((hreads.edges qid' _).mp hedge)
    | _ => cases hsubject'
  · rintro ⟨⟨hmem, hshard⟩, hpresent⟩
    have hin := And.intro ((hreads.ids qid).mpr hmem) hshard
    obtain ⟨key, value, hvalue⟩ | ⟨⟨edgeType, _, dst⟩, hedge, rfl⟩ := exists_of_not_absent hpresent
    · exact ⟨_, mem_exportedOps_setProperty.mpr ⟨hin, value, (hreads.properties qid key value).mpr hvalue, rfl⟩, rfl⟩
    · exact ⟨_, mem_exportedOps_addEdge.mpr ⟨hin, (hreads.edges qid _).mpr hedge, rfl⟩, rfl⟩

theorem lookup_of_received {qid : NexoraId} (hmem : qid ∈ source.ids)
    (hshard : shardKey qid % totalShards = shardId) (key : Symbol) :
    (target.state qid).properties.lookup key =
      ((source.state qid).properties.lookup key).map fun value => jsonToProperty (propertyToJson debug value) := by
  refine ext fun value => ?_
  rw [h.properties, map_eq_some_iff]
  simp only [mem_exportedOps_setProperty, hreads.ids, hreads.properties, hmem, hshard, true_and]
  constructor
  · rintro ⟨_, ⟨old, hold, rfl⟩, rfl⟩
    exact ⟨old, hold, rfl⟩
  · rintro ⟨old, hold, rfl⟩
    exact ⟨_, ⟨old, hold, rfl⟩, rfl⟩

theorem outgoing_of_received {qid : NexoraId} (hmem : qid ∈ source.ids)
    (hshard : shardKey qid % totalShards = shardId) :
    outgoing (target.state qid) = outgoing (source.state qid) := by
  ext ⟨edgeType, direction, dst⟩
  rw [outgoing, outgoing, Finset.mem_filter, Finset.mem_filter, h.edges]
  simp only [mem_exportedOps_addEdge, hreads.ids, hreads.edges, hmem, hshard, true_and]
  refine and_congr_left fun hout => ?_
  cases hout
  constructor
  · rintro ⟨_, ⟨hedge, rfl⟩, -⟩
    exact hedge
  · intro hedge
    exact ⟨"out", ⟨hedge, rfl⟩, rfl⟩

end

theorem edgeProperty_of_received {ops : List GraphOperation} (h : Received ops target)
    (qid : NexoraId) (edgeType : Symbol) (dst : NexoraId) (key : Symbol) :
    edgeProperty (target.state qid) edgeType dst key = none := by
  rw [edgeProperty, h.edgeProperties, lookup_empty]
  rfl

section
variable (hreads : reads.Of source) (h : Received (exportedOps debug shardKey reads shardId totalShards) target)
include hreads h

theorem sameNode_iff {qid : NexoraId} (hmem : qid ∈ source.ids)
    (hshard : shardKey qid % totalShards = shardId) :
    qid ∈ target.ids ∧ SameNode (source.state qid) (target.state qid) ↔
    Transferable (source.state qid) := by
  rw [mem_ids_of_received hreads h]
  constructor
  · rintro ⟨⟨-, hpresent⟩, hsame⟩
    refine ⟨hsame.labels.symm.trans (h.labels qid), fun key value hvalue => ?_, fun edgeType dst key => ?_, hpresent⟩
    · have hlookup := lookup_of_received hreads h hmem hshard key
      rw [hsame.properties, hvalue] at hlookup
      exact (jsonToProperty_propertyToJson debug value).mp (some.inj hlookup).symm
    · rw [← hsame.edgeProperty]
      exact edgeProperty_of_received h qid edgeType dst key
  · intro htransfer
    refine ⟨⟨⟨hmem, hshard⟩, htransfer.occurs⟩, (h.labels qid).trans htransfer.labels.symm, ?_,
      outgoing_of_received hreads h hmem hshard, ?_⟩
    · refine ext_lookup fun key => ?_
      rw [lookup_of_received hreads h hmem hshard]
      cases hvalue : (source.state qid).properties.lookup key with
      | none => rfl
      | some value => exact congrArg some ((jsonToProperty_propertyToJson debug value).mpr (htransfer.plain key value hvalue))
    · funext edgeType dst key
      rw [edgeProperty_of_received h, htransfer.edgeProperty]

theorem faithful_of_received_iff :
    Faithful (fun qid => shardKey qid % totalShards = shardId) source target ↔
      ∀ qid ∈ source.ids, shardKey qid % totalShards = shardId →
        ((source.state qid).tombstone = none → Transferable (source.state qid)) ∧
          ((source.state qid).tombstone ≠ none → Absent (source.state qid)) := by
  have hlive : ∀ qid, target.Live qid ↔ qid ∈ target.ids :=
    fun qid => and_iff_left (h.tombstone qid)
  constructor
  · intro hfaithful qid hmem hshard
    constructor
    · intro halive
      refine (sameNode_iff hreads h hmem hshard).mp ⟨?_, hfaithful.same qid hshard ⟨hmem, halive⟩⟩
      exact (hlive qid).mp ((hfaithful.live qid hshard).mpr ⟨hmem, halive⟩)
    · intro hdead
      by_contra hpresent
      have hthere := (hlive qid).mpr ((mem_ids_of_received hreads h qid).mpr ⟨⟨hmem, hshard⟩, hpresent⟩)
      exact hdead ((hfaithful.live qid hshard).mp hthere).2
  · intro hall
    refine ⟨fun qid hshard => ?_, fun qid hshard hsource => ?_, fun qid hshard hmem => ?_⟩
    · rw [hlive]
      constructor
      · intro hmem
        obtain ⟨⟨hsource, -⟩, hpresent⟩ := (mem_ids_of_received hreads h qid).mp hmem
        refine ⟨hsource, ?_⟩
        by_contra hdead
        exact hpresent ((hall qid hsource hshard).2 hdead)
      · intro hsource
        exact ((sameNode_iff hreads h hsource.1 hshard).mpr ((hall qid hsource.1 hshard).1 hsource.2)).1
    · exact ((sameNode_iff hreads h hsource.1 hshard).mpr ((hall qid hsource.1 hshard).1 hsource.2)).2
    · exact hshard ((mem_ids_of_received hreads h qid).mp hmem).1.2

end

variable [NeZero totalShards]

theorem received_catchUpShard (S : Serde) (clock : NexoraId → EventTime) (hreads : reads.Of source)
    {run : TransferRun} {dir : Bool}
    (hfetched : run.fetched = .ok (exportShard debug shardKey reads shardId totalShards))
    (hdir : (if dir then run.createDir else .ok ()) = .ok ()) (hcall : ∀ i, run.call i = .done)
    (sourceNode : String) :
    Received (exportedOps debug shardKey reads shardId totalShards)
      (catchUpShard (GraphHost.handle S) run dir sourceNode shardId (.empty clock) none).1.1 := by
  rw [(catchUpShard_exportShard hfetched hdir hcall sourceNode _).1]
  refine .foldl clock (fun op hop => ?_) (setOnce_exportedOps hreads.nodup_ids hreads.nodup_keys)
  obtain ⟨qid, hsubject, -⟩ := subject_of_mem_exportedOps hop
  rw [hsubject]
  rfl

/-- **Fidelity of a transfer.** A run that fetches a shard's snapshot and executes all of it on an
empty graph returns, and leaves the shard as the source has it if and only if each live node is one
that a snapshot can hold, and each deleted one is in none. -/
theorem faithful_catchUpShard_iff (S : Serde) (clock : NexoraId → EventTime)
    (hreads : reads.Of source) {run : TransferRun} {dir : Bool}
    (hfetched : run.fetched = .ok (exportShard debug shardKey reads shardId totalShards))
    (hdir : (if dir then run.createDir else .ok ()) = .ok ()) (hcall : ∀ i, run.call i = .done)
    (sourceNode : String) :
    (∃ answer, (catchUpShard (GraphHost.handle S) run dir sourceNode shardId (.empty clock) none).2 = .ok answer) ∧
      (Faithful (fun qid => shardKey qid % totalShards = shardId) source
          (catchUpShard (GraphHost.handle S) run dir sourceNode shardId (.empty clock) none).1.1 ↔
        ∀ qid ∈ source.ids, shardKey qid % totalShards = shardId →
          ((source.state qid).tombstone = none → Transferable (source.state qid)) ∧
            ((source.state qid).tombstone ≠ none → Absent (source.state qid))) :=
  ⟨(catchUpShard_exportShard hfetched hdir hcall sourceNode _).2,
    faithful_of_received_iff hreads (received_catchUpShard S clock hreads hfetched hdir hcall sourceNode)⟩

end

/-! ### A node with and without a label -/

def person (labels : Finset Symbol) : NodeState :=
  { empty with labels, properties := insert "name" (.string "Ada") ∅ }

def alone (s : NodeState) : GraphHost where
  service :=
    { new (fun _ => 0) with nodes := fun qid => .spawnWithFullState 0 (if qid = ⟨[1]⟩ then s else .empty) none }
  ids := {⟨[1]⟩}

def aloneReads : GraphReads where
  allNodeIds := [⟨[1]⟩]
  getAllProperties qid := if qid = ⟨[1]⟩ then [("name", .string "Ada")] else []
  getEdges _ := []

def oneShard (_ : NexoraId) : Nat := 0

def aloneRun : TransferRun := complete (exportShard (fun _ => "") oneShard aloneReads 0 1)

section
variable (labels : Finset Symbol)

theorem aloneReads_of : aloneReads.Of (alone (person labels)) where
  nodup_ids := nodup_singleton _
  ids qid := by simp [aloneReads, alone]
  nodup_keys qid := by
    unfold aloneReads
    dsimp only
    split <;> simp
  properties qid key value := by
    show (key, value) ∈ (if qid = ⟨[1]⟩ then [("name", string "Ada")] else []) ↔
      (if qid = ⟨[1]⟩ then person labels else .empty).properties.lookup key = some value
    split
    · by_cases hkey : key = "name"
      · rw [hkey, person, lookup_insert]
        simp [eq_comm]
      · rw [person, lookup_insert_of_ne _ hkey, lookup_empty]
        simp [hkey]
    · simp [empty]
  edges qid edge := by
    show edge ∈ [] ↔ edge ∈ (if qid = ⟨[1]⟩ then person labels else .empty).edges
    split <;> simp [person, empty]

theorem plain_person (key : Symbol) (value : PropertyValue)
    (h : (person labels).properties.lookup key = some value) : Plain value := by
  by_cases hkey : key = "name"
  · rw [hkey, person, lookup_insert] at h
    cases h
    trivial
  · rw [person, lookup_insert_of_ne _ hkey, lookup_empty] at h
    cases h

theorem not_absent_person : ¬ Absent (person labels) := by
  intro habsent
  have hlookup := habsent.lookup "name"
  rw [person, lookup_insert] at hlookup
  cases hlookup

end

/-- Without a label the node comes over. -/
theorem faithful_without_label : Faithful (fun qid => oneShard qid % 1 = 0) (alone (person ∅))
      (catchUpShard (GraphHost.handle (sampleLibraries [])) aloneRun false "c" 0 (.empty fun _ => 0) none).1.1 := by
  refine (faithful_catchUpShard_iff _ _ (aloneReads_of ∅) rfl rfl (fun _ => rfl) _).2.mpr fun qid hqid _ => ?_
  rw [Finset.mem_singleton.mp hqid]
  exact ⟨fun _ => ⟨rfl, plain_person ∅, fun _ _ _ => rfl, not_absent_person ∅⟩, fun hdead => absurd rfl hdead⟩

/-- **A label is lost.** -/
theorem not_faithful_with_label :
    ¬ Faithful (fun qid => oneShard qid % 1 = 0) (alone (person {"Person"}))
      (catchUpShard (GraphHost.handle (sampleLibraries [])) aloneRun false "c" 0 (.empty fun _ => 0) none).1.1 := by
  intro hfaithful
  have hreceived : Received (exportedOps (fun _ => "") oneShard aloneReads 0 1)
      (catchUpShard (GraphHost.handle (sampleLibraries [])) aloneRun false "c" 0 (.empty fun _ => 0) none).1.1 :=
    received_catchUpShard _ _ (aloneReads_of {"Person"}) rfl rfl (fun _ => rfl) _
  have hsame := hfaithful.same ⟨[1]⟩ rfl ⟨Finset.mem_singleton_self _, rfl⟩
  exact singleton_ne_empty "Person" (hsame.labels.symm.trans (hreceived.labels ⟨[1]⟩))

end Nexora.Transfer
