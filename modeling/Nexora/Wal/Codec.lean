import Nexora.Event
import Nexora.Wal.Packed
import Mathlib.Data.Option.Basic

/-!
# The payload of a log record

`encode_wal_record_fb` and `decode_wal_record_auto` of `flatbuf_codec.rs`. Checkpoints, offset
commits and single property and edge events are written as FlatBuffers, everything else as JSON. The
encoders are third-party code and come in as the fields of `Serde`; a JSON document is a tree.
-/

namespace Nexora
open Lib

/-! ### The third-party encoders -/

inductive FbEdgeDirection where
  | undirected
  | outgoing
  | incoming
  | other (code : UInt8)
deriving DecidableEq

inductive FbNodeEvent where
  | addProperty (key : String) (value : List Int8)
  | removeProperty (key : String) (value : List Int8)
  | addEdge (edgeType : String) (direction : FbEdgeDirection) (otherId : List Int8)
  | removeEdge (edgeType : String) (direction : FbEdgeDirection) (otherId : List Int8)
  | unsupported
deriving DecidableEq

inductive FbWalOperation where
  | nodeEventWithTime (qid : List Int8) (eventTime : Int64) (event : FbNodeEvent)
  | snapshotCheckpoint (qid : List Int8) (snapshotTime : Int64)
  | ingestOffsetCommit (ingestId : String) (partition : Int32) (offset : Int64)
  | unsupported
deriving DecidableEq

structure WalRecordBuffer where
  seqNo : Int64
  operation : FbWalOperation
deriving DecidableEq

/-- The libraries the codec calls: `serde_json`, `rmp-serde`, `flatbuffers`, and the texts of
`chrono` and `uuid` values. `jsonFloat x` is the double that `serde_json` reads from the text it
wrote for the finite double `x`, and `jsonError` the message of a failed read; `msgpackDepth` is the
nesting that the reader of `rmp-serde` counts. -/
structure Serde where
  jsonToVec : Json → List UInt8
  jsonFromSlice : List UInt8 → Option Json
  jsonError : List UInt8 → String
  jsonFloat : F64 → F64
  msgpackToVec : PropertyValue → Option (List UInt8)
  msgpackFromSlice : List UInt8 → Option PropertyValue
  msgpackDepth : PropertyValue → Nat
  fbFinish : WalRecordBuffer → List UInt8
  fbRoot : List UInt8 → Option WalRecordBuffer
  dateText : NaiveDate → String
  dateParse : String → Option NaiveDate
  dateTimeText : NaiveDateTime → String
  dateTimeParse : String → Option NaiveDateTime
  utcText : NaiveDateTime → String
  utcParse : String → Option NaiveDateTime
  uuidText : Uuid → String
  uuidParse : String → Option Uuid

/-! ### `Serialize`: from values to JSON trees -/

/-- `serialize_f64`: JSON has no NaN and no infinities, so they are written as `null`. -/
def f64ToJson (x : F64) : Json := if x.isFinite then .float x else .null

def bytesToJson (b : List UInt8) : Json := .arr (b.map fun x => .int x.toNat)

def optionToJson {A : Type} (f : A → Json) : Option A → Json
  | none => .null
  | some a => f a

def DurationValue.toJson (d : DurationValue) : Json :=
  .obj [("months", .int d.months.toInt), ("days", .int d.days.toInt), ("seconds", .int d.seconds.toInt),
    ("nanoseconds", .int d.nanoseconds.toInt)]

def PointValue.toJson (p : PointValue) : Json :=
  .obj [("x", f64ToJson p.x), ("y", f64ToJson p.y), ("z", optionToJson f64ToJson p.z), ("srid", .int p.srid.toInt)]

def BlobRef.toJson (b : BlobRef) : Json :=
  .obj [("bucket", .str b.bucket), ("entry", .str b.entry), ("timestamp_us", .int b.timestampUs.toNat),
    ("size", .int b.size.toNat), ("content_type", .str b.contentType),
    ("labels", .obj (b.labels.map fun entry => (entry.1, .str entry.2)))]

mutual

/-- A variant is written as an object whose one field is the variant's name. -/
def PropertyValue.toJson (S : Serde) : PropertyValue → Json
  | .null => .str "Null"
  | .boolean b => .obj [("Boolean", .bool b)]
  | .integer i => .obj [("Integer", .int i.toInt)]
  | .float x => .obj [("Float", f64ToJson x)]
  | .string s => .obj [("String", .str s)]
  | .bytes b => .obj [("Bytes", bytesToJson b)]
  | .list l => .obj [("List", .arr (listToJson S l))]
  | .map m => .obj [("Map", .obj (entriesToJson S m))]
  | .node n => .obj [("Node", n.toJson S)]
  | .relationship r => .obj [("Relationship", r.toJson S)]
  | .path nodes relationships =>
      .obj [("Path", .obj [("nodes", .arr (nodesToJson S nodes)),
        ("relationships", .arr (relationshipsToJson S relationships))])]
  | .date d => .obj [("Date", .str (S.dateText d))]
  | .localDateTime d => .obj [("LocalDateTime", .str (S.dateTimeText d))]
  | .zonedDateTime d => .obj [("ZonedDateTime", .str (S.utcText d))]
  | .duration d => .obj [("Duration", d.toJson)]
  | .point p => .obj [("Point", p.toJson)]
  | .blobRef b => .obj [("BlobRef", b.toJson)]

def NodeValue.toJson (S : Serde) : NodeValue → Json
  | .mk id labels properties =>
      .obj [("id", bytesToJson id), ("labels", .arr (labels.map .str)), ("properties", .obj (entriesToJson S properties))]

def RelationshipValue.toJson (S : Serde) : RelationshipValue → Json
  | .mk id relType startNodeId endNodeId properties =>
      .obj [("id", bytesToJson id), ("rel_type", .str relType), ("start_node_id", bytesToJson startNodeId),
        ("end_node_id", bytesToJson endNodeId), ("properties", .obj (entriesToJson S properties))]

def listToJson (S : Serde) : List PropertyValue → List Json
  | [] => []
  | v :: rest => v.toJson S :: listToJson S rest

def entriesToJson (S : Serde) : List (String × PropertyValue) → List (String × Json)
  | [] => []
  | (k, v) :: rest => (k, v.toJson S) :: entriesToJson S rest

def nodesToJson (S : Serde) : List NodeValue → List Json
  | [] => []
  | n :: rest => n.toJson S :: nodesToJson S rest

def relationshipsToJson (S : Serde) : List RelationshipValue → List Json
  | [] => []
  | r :: rest => r.toJson S :: relationshipsToJson S rest

end

/-! ### `Deserialize`: from JSON trees to values

The readers take an object's fields in the order in which the writers put them. -/

def boolOfJson : Json → Option Bool
  | .bool b => some b
  | _ => none

def stringOfJson : Json → Option String
  | .str s => some s
  | _ => none

/-- The writers print every double with a fraction or an exponent, so a double is never read from an
integer. -/
def f64OfJson : Json → Option F64
  | .float x => some x
  | _ => none

def u8OfJson : Json → Option UInt8
  | .int n => if 0 ≤ n ∧ n < 2 ^ 8 then some (UInt8.ofNat n.toNat) else none
  | _ => none

def u64OfJson : Json → Option UInt64
  | .int n => if 0 ≤ n ∧ n < 2 ^ 64 then some (UInt64.ofNat n.toNat) else none
  | _ => none

def i32OfJson : Json → Option Int32
  | .int n => if -2 ^ 31 ≤ n ∧ n < 2 ^ 31 then some (Int32.ofInt n) else none
  | _ => none

def i64OfJson : Json → Option Int64
  | .int n => if -2 ^ 63 ≤ n ∧ n < 2 ^ 63 then some (Int64.ofInt n) else none
  | _ => none

def optionOfJson {A : Type} (f : Json → Option A) : Json → Option (Option A)
  | .null => some none
  | j => (f j).map some

def itemsOfJson {A : Type} (f : Json → Option A) : Json → Option (List A)
  | .arr items => items.mapM f
  | _ => none

def bytesOfJson : Json → Option (List UInt8) := itemsOfJson u8OfJson

/-- Insert into a `BTreeMap`: an entry with the same key is replaced. -/
def btreeInsert {V : Type} (k : String) (v : V) : List (String × V) → List (String × V)
  | [] => [(k, v)]
  | (k', v') :: rest =>
      if k < k' then (k, v) :: (k', v') :: rest
      else if k = k' then (k, v) :: rest
      else (k', v') :: btreeInsert k v rest

def btreeOfEntries {V : Type} (entries : List (String × V)) : List (String × V) :=
  entries.foldl (fun m entry => btreeInsert entry.1 entry.2 m) []

def DurationValue.ofJson : Json → Option DurationValue
  | .obj [("months", months), ("days", days), ("seconds", seconds), ("nanoseconds", nanoseconds)] => do
      return ⟨← i64OfJson months, ← i64OfJson days, ← i64OfJson seconds, ← i64OfJson nanoseconds⟩
  | _ => none

def PointValue.ofJson : Json → Option PointValue
  | .obj [("x", x), ("y", y), ("z", z), ("srid", srid)] => do
      return ⟨← f64OfJson x, ← f64OfJson y, ← optionOfJson f64OfJson z, ← i32OfJson srid⟩
  | _ => none

def stringEntriesOfJson : Json → Option (List (String × String))
  | .obj fields => (fields.mapM fun entry => (stringOfJson entry.2).map (Prod.mk entry.1)).map btreeOfEntries
  | _ => none

def BlobRef.ofJson : Json → Option BlobRef
  | .obj [("bucket", bucket), ("entry", entry), ("timestamp_us", timestampUs), ("size", size),
      ("content_type", contentType), ("labels", labels)] => do
      return ⟨← stringOfJson bucket, ← stringOfJson entry, ← u64OfJson timestampUs, ← u64OfJson size,
        ← stringOfJson contentType, ← stringEntriesOfJson labels⟩
  | _ => none

mutual

def PropertyValue.ofJson (S : Serde) : Json → Option PropertyValue
  | .str "Null" => some .null
  | .obj [("Boolean", body)] => (boolOfJson body).map .boolean
  | .obj [("Integer", body)] => (i64OfJson body).map .integer
  | .obj [("Float", body)] => (f64OfJson body).map .float
  | .obj [("String", body)] => (stringOfJson body).map .string
  | .obj [("Bytes", body)] => (bytesOfJson body).map .bytes
  | .obj [("List", .arr items)] => (listOfJson S items).map .list
  | .obj [("Map", .obj fields)] => (entriesOfJson S fields).map fun m => .map (btreeOfEntries m)
  | .obj [("Node", body)] => (NodeValue.ofJson S body).map .node
  | .obj [("Relationship", body)] => (RelationshipValue.ofJson S body).map .relationship
  | .obj [("Path", .obj [("nodes", .arr nodes), ("relationships", .arr relationships)])] =>
      (nodesOfJson S nodes).bind fun ns => (relationshipsOfJson S relationships).map fun rs => .path ns rs
  | .obj [("Date", body)] => (stringOfJson body).bind S.dateParse |>.map .date
  | .obj [("LocalDateTime", body)] => (stringOfJson body).bind S.dateTimeParse |>.map .localDateTime
  | .obj [("ZonedDateTime", body)] => (stringOfJson body).bind S.utcParse |>.map .zonedDateTime
  | .obj [("Duration", body)] => (DurationValue.ofJson body).map .duration
  | .obj [("Point", body)] => (PointValue.ofJson body).map .point
  | .obj [("BlobRef", body)] => (BlobRef.ofJson body).map .blobRef
  | _ => none

def NodeValue.ofJson (S : Serde) : Json → Option NodeValue
  | .obj [("id", id), ("labels", labels), ("properties", .obj fields)] =>
      (bytesOfJson id).bind fun i => (itemsOfJson stringOfJson labels).bind fun l =>
        (entriesOfJson S fields).map fun m => .mk i l (btreeOfEntries m)
  | _ => none

def RelationshipValue.ofJson (S : Serde) : Json → Option RelationshipValue
  | .obj [("id", id), ("rel_type", relType), ("start_node_id", startNodeId), ("end_node_id", endNodeId),
      ("properties", .obj fields)] =>
      (bytesOfJson id).bind fun i => (stringOfJson relType).bind fun t => (bytesOfJson startNodeId).bind fun s =>
        (bytesOfJson endNodeId).bind fun e => (entriesOfJson S fields).map fun m => .mk i t s e (btreeOfEntries m)
  | _ => none

def listOfJson (S : Serde) : List Json → Option (List PropertyValue)
  | [] => some []
  | j :: rest => (PropertyValue.ofJson S j).bind fun v => (listOfJson S rest).map (v :: ·)

def entriesOfJson (S : Serde) : List (String × Json) → Option (List (String × PropertyValue))
  | [] => some []
  | (k, j) :: rest => (PropertyValue.ofJson S j).bind fun v => (entriesOfJson S rest).map ((k, v) :: ·)

def nodesOfJson (S : Serde) : List Json → Option (List NodeValue)
  | [] => some []
  | j :: rest => (NodeValue.ofJson S j).bind fun n => (nodesOfJson S rest).map (n :: ·)

def relationshipsOfJson (S : Serde) : List Json → Option (List RelationshipValue)
  | [] => some []
  | j :: rest => (RelationshipValue.ofJson S j).bind fun r => (relationshipsOfJson S rest).map (r :: ·)

end

/-! ### Events, operations and records as JSON -/

def NexoraId.toJson (qid : NexoraId) : Json := bytesToJson qid.bytes

def NexoraId.ofJson (j : Json) : Option NexoraId := (bytesOfJson j).map NexoraId.mk

def EventTime.toJson (t : EventTime) : Json := .int t.val

def EventTime.ofJson : Json → Option EventTime
  | .int n => if h : n.toNat < 2 ^ 64 then (if 0 ≤ n then some ⟨n.toNat, h⟩ else none) else none
  | _ => none

def EdgeDirection.toJson : EdgeDirection → Json
  | .out => .str "Out"
  | .incoming => .str "In"

def EdgeDirection.ofJson : Json → Option EdgeDirection
  | .str "Out" => some .out
  | .str "In" => some .incoming
  | _ => none

def HalfEdge.toJson (e : HalfEdge) : Json :=
  .obj [("edge_type", .str e.edgeType), ("direction", e.direction.toJson), ("other", e.other.toJson)]

def HalfEdge.ofJson : Json → Option HalfEdge
  | .obj [("edge_type", edgeType), ("direction", direction), ("other", other)] => do
      return ⟨← stringOfJson edgeType, ← EdgeDirection.ofJson direction, ← NexoraId.ofJson other⟩
  | _ => none

def TombstoneRecord.toJson (t : TombstoneRecord) : Json :=
  .obj [("deleted_at", EventTime.toJson t.deletedAt), ("deleted_by", optionToJson .str t.deletedBy),
    ("reason", optionToJson .str t.reason)]

def TombstoneRecord.ofJson : Json → Option TombstoneRecord
  | .obj [("deleted_at", deletedAt), ("deleted_by", deletedBy), ("reason", reason)] => do
      return ⟨← EventTime.ofJson deletedAt, ← optionOfJson stringOfJson deletedBy, ← optionOfJson stringOfJson reason⟩
  | _ => none

def NodeChangeEvent.toJson (S : Serde) : NodeChangeEvent → Json
  | .propertySet key value => .obj [("PropertySet", .obj [("key", .str key), ("value", value.toJson S)])]
  | .propertyRemoved key previousValue =>
      .obj [("PropertyRemoved", .obj [("key", .str key), ("previous_value", previousValue.toJson S)])]
  | .labelAdded label => .obj [("LabelAdded", .obj [("label", .str label)])]
  | .labelRemoved label => .obj [("LabelRemoved", .obj [("label", .str label)])]
  | .edgeAdded edge => .obj [("EdgeAdded", .obj [("edge", edge.toJson)])]
  | .edgeRemoved edge => .obj [("EdgeRemoved", .obj [("edge", edge.toJson)])]
  | .edgePropertySet edgeType target key value =>
      .obj [("EdgePropertySet", .obj [("edge_type", .str edgeType), ("target", target.toJson), ("key", .str key),
        ("value", value.toJson S)])]
  | .edgePropertyRemoved edgeType target key =>
      .obj [("EdgePropertyRemoved", .obj [("edge_type", .str edgeType), ("target", target.toJson), ("key", .str key)])]
  | .nodeDeleted tombstone => .obj [("NodeDeleted", .obj [("tombstone", tombstone.toJson)])]
  | .nodeRestored => .str "NodeRestored"

def NodeChangeEvent.ofJson (S : Serde) : Json → Option NodeChangeEvent
  | .obj [("PropertySet", .obj [("key", key), ("value", value)])] => do
      return .propertySet (← stringOfJson key) (← PropertyValue.ofJson S value)
  | .obj [("PropertyRemoved", .obj [("key", key), ("previous_value", previousValue)])] => do
      return .propertyRemoved (← stringOfJson key) (← PropertyValue.ofJson S previousValue)
  | .obj [("LabelAdded", .obj [("label", label)])] => (stringOfJson label).map .labelAdded
  | .obj [("LabelRemoved", .obj [("label", label)])] => (stringOfJson label).map .labelRemoved
  | .obj [("EdgeAdded", .obj [("edge", edge)])] => (HalfEdge.ofJson edge).map .edgeAdded
  | .obj [("EdgeRemoved", .obj [("edge", edge)])] => (HalfEdge.ofJson edge).map .edgeRemoved
  | .obj [("EdgePropertySet", .obj [("edge_type", edgeType), ("target", target), ("key", key), ("value", value)])] => do
      return .edgePropertySet (← stringOfJson edgeType) (← NexoraId.ofJson target) (← stringOfJson key)
        (← PropertyValue.ofJson S value)
  | .obj [("EdgePropertyRemoved", .obj [("edge_type", edgeType), ("target", target), ("key", key)])] => do
      return .edgePropertyRemoved (← stringOfJson edgeType) (← NexoraId.ofJson target) (← stringOfJson key)
  | .obj [("NodeDeleted", .obj [("tombstone", tombstone)])] => (TombstoneRecord.ofJson tombstone).map .nodeDeleted
  | .str "NodeRestored" => some .nodeRestored
  | _ => none

def TimedEvent.toJson {E : Type} (f : E → Json) (t : TimedEvent E) : Json :=
  .obj [("event", f t.event), ("time", EventTime.toJson t.time)]

def TimedEvent.ofJson {E : Type} (f : Json → Option E) : Json → Option (TimedEvent E)
  | .obj [("event", event), ("time", time)] => do return ⟨← f event, ← EventTime.ofJson time⟩
  | _ => none

def DomainIndexEvent.toJson (S : Serde) : DomainIndexEvent → Json
  | .createDomainNodeSubscription subscriber dgnId queryId =>
      .obj [("CreateDomainNodeSubscription", .obj [("subscriber_nexora_id", subscriber.toJson),
        ("dgn_id", .int dgnId.toNat), ("query_id", .str (S.uuidText queryId))])]
  | .cancelDomainNodeSubscription subscriber dgnId =>
      .obj [("CancelDomainNodeSubscription", .obj [("subscriber_nexora_id", subscriber.toJson),
        ("dgn_id", .int dgnId.toNat)])]
  | .domainNodeSubscriptionResult subscriber dgnId result =>
      .obj [("DomainNodeSubscriptionResult", .obj [("subscriber_nexora_id", subscriber.toJson),
        ("dgn_id", .int dgnId.toNat), ("result", .bool result)])]
  | .createDomainStandingQuerySubscription subscriber dgnId =>
      .obj [("CreateDomainStandingQuerySubscription", .obj [("subscriber_nexora_id", subscriber.toJson),
        ("dgn_id", .int dgnId.toNat)])]

def DomainIndexEvent.ofJson (S : Serde) : Json → Option DomainIndexEvent
  | .obj [("CreateDomainNodeSubscription", .obj [("subscriber_nexora_id", subscriber), ("dgn_id", dgnId),
      ("query_id", queryId)])] => do
      return .createDomainNodeSubscription (← NexoraId.ofJson subscriber) (← u64OfJson dgnId)
        (← (stringOfJson queryId).bind S.uuidParse)
  | .obj [("CancelDomainNodeSubscription", .obj [("subscriber_nexora_id", subscriber), ("dgn_id", dgnId)])] => do
      return .cancelDomainNodeSubscription (← NexoraId.ofJson subscriber) (← u64OfJson dgnId)
  | .obj [("DomainNodeSubscriptionResult", .obj [("subscriber_nexora_id", subscriber), ("dgn_id", dgnId),
      ("result", result)])] => do
      return .domainNodeSubscriptionResult (← NexoraId.ofJson subscriber) (← u64OfJson dgnId) (← boolOfJson result)
  | .obj [("CreateDomainStandingQuerySubscription", .obj [("subscriber_nexora_id", subscriber), ("dgn_id", dgnId)])] => do
      return .createDomainStandingQuerySubscription (← NexoraId.ofJson subscriber) (← u64OfJson dgnId)
  | _ => none

variable (S : Serde)

def RawEvent.toJson (e : RawEvent) : Json :=
  .obj [("event_id", .str (S.uuidText e.eventId)), ("event_time_us", .int e.eventTimeUs.toNat),
    ("ingest_time_us", .int e.ingestTimeUs.toNat), ("source", .str e.source), ("topic", .str e.topic),
    ("partition", optionToJson (fun p => .int p.toInt) e.partition),
      ("offset", optionToJson (fun o => .int o.toInt) e.offset),
    ("subject", optionToJson .str e.subject), ("payload", e.payload)]

def RawEvent.ofJson : Json → Option RawEvent
  | .obj [("event_id", eventId), ("event_time_us", eventTimeUs), ("ingest_time_us", ingestTimeUs), ("source", source),
      ("topic", topic), ("partition", partition), ("offset", offset), ("subject", subject), ("payload", payload)] => do
      return ⟨← (stringOfJson eventId).bind S.uuidParse, ← u64OfJson eventTimeUs, ← u64OfJson ingestTimeUs,
        ← stringOfJson source, ← stringOfJson topic, ← optionOfJson i32OfJson partition,
        ← optionOfJson i64OfJson offset, ← optionOfJson stringOfJson subject, payload⟩
  | _ => none

def WalOperation.toJson (S : Serde) : WalOperation → Json
  | .nodeEvent qid event =>
      .obj [("NodeEvent", .obj [("qid", qid.toJson), ("event", event.toJson (NodeChangeEvent.toJson S))])]
  | .nodeEvents qid events =>
      .obj [("NodeEvents", .obj [("qid", qid.toJson),
        ("events", .arr (events.map fun event => event.toJson (NodeChangeEvent.toJson S)))])]
  | .domainIndexEvent qid event =>
      .obj [("DomainIndexEvent", .obj [("qid", qid.toJson), ("event", event.toJson (DomainIndexEvent.toJson S))])]
  | .snapshotCheckpoint qid snapshotTime =>
      .obj [("SnapshotCheckpoint", .obj [("qid", qid.toJson), ("snapshot_time", EventTime.toJson snapshotTime)])]
  | .ingestOffsetCommit ingestId partition offset =>
      .obj [("IngestOffsetCommit", .obj [("ingest_id", .str ingestId), ("partition", .int partition.toInt),
        ("offset", .int offset.toInt)])]
  | .rawEvent event => .obj [("RawEvent", .obj [("event", event.toJson S)])]

def WalOperation.ofJson (S : Serde) : Json → Option WalOperation
  | .obj [("NodeEvent", .obj [("qid", qid), ("event", event)])] => do
      return .nodeEvent (← NexoraId.ofJson qid) (← TimedEvent.ofJson (NodeChangeEvent.ofJson S) event)
  | .obj [("NodeEvents", .obj [("qid", qid), ("events", events)])] => do
      return .nodeEvents (← NexoraId.ofJson qid) (← itemsOfJson (TimedEvent.ofJson (NodeChangeEvent.ofJson S)) events)
  | .obj [("DomainIndexEvent", .obj [("qid", qid), ("event", event)])] => do
      return .domainIndexEvent (← NexoraId.ofJson qid) (← TimedEvent.ofJson (DomainIndexEvent.ofJson S) event)
  | .obj [("SnapshotCheckpoint", .obj [("qid", qid), ("snapshot_time", snapshotTime)])] => do
      return .snapshotCheckpoint (← NexoraId.ofJson qid) (← EventTime.ofJson snapshotTime)
  | .obj [("IngestOffsetCommit", .obj [("ingest_id", ingestId), ("partition", partition), ("offset", offset)])] => do
      return .ingestOffsetCommit (← stringOfJson ingestId) (← i32OfJson partition) (← i64OfJson offset)
  | .obj [("RawEvent", .obj [("event", event)])] => (RawEvent.ofJson S event).map .rawEvent
  | _ => none

def WalRecord.toJson (S : Serde) (record : WalRecord) : Json :=
  .obj [("seq_no", .int record.seqNo), ("operation", record.operation.toJson S), ("version", .int record.version)]

/-- The field `version` has a default, for records written before it existed. -/
def WalRecord.ofJson (S : Serde) : Json → Option WalRecord
  | .obj [("seq_no", seqNo), ("operation", operation), ("version", version)] => do
      return ⟨(← u64OfJson seqNo).toNat, ← WalOperation.ofJson S operation, (← u64OfJson version).toNat⟩
  | .obj [("seq_no", seqNo), ("operation", operation)] => do
      return ⟨(← u64OfJson seqNo).toNat, ← WalOperation.ofJson S operation, 0⟩
  | _ => none

/-! ### The codec -/

def walMagicJson : List UInt8 := [0x51, 0x57]

def walMagicFb : List UInt8 := [0x51, 0x46]

def walStopMarker : UInt8 := 0xFF

def edgeDirectionToFb : EdgeDirection → FbEdgeDirection
  | .out => .outgoing
  | .incoming => .incoming

/-- The schema knows undirected edges, the node does not: they become incoming ones. -/
def fbEdgeDirectionToRust : FbEdgeDirection → EdgeDirection
  | .outgoing => .out
  | .incoming => .incoming
  | .undirected => .incoming
  | .other _ => .out

def createByteVector (data : List UInt8) : List Int8 := data.map UInt8.toInt8

def readByteVector (data : List Int8) : List UInt8 := data.map Int8.toUInt8

/-- `as i64` of a `u64` held as a natural number. -/
def asI64 (n : Nat) : Int64 := (UInt64.ofNat n).toInt64

/-- `EventTime::from_micros(x as u64)`. -/
def eventTimeOfI64 (x : Int64) : EventTime := ⟨x.toUInt64.toNat, x.toUInt64.toNat_lt⟩

def propertyValueToMsgpack (value : PropertyValue) : List UInt8 :=
  (S.msgpackToVec value).getD (S.jsonToVec (value.toJson S))

def msgpackToPropertyValue (data : List UInt8) : Option PropertyValue :=
  (S.msgpackFromSlice data).or ((S.jsonFromSlice data).bind (PropertyValue.ofJson S))

/-- The event table of a single node event, for the four kinds of events the schema has. -/
def nodeEventToFb : NodeChangeEvent → Option FbNodeEvent
  | .propertySet key value => some (.addProperty key (createByteVector (propertyValueToMsgpack S value)))
  | .propertyRemoved key previousValue =>
      some (.removeProperty key (createByteVector (propertyValueToMsgpack S previousValue)))
  | .edgeAdded edge =>
      some (.addEdge edge.edgeType (edgeDirectionToFb edge.direction) (createByteVector edge.other.bytes))
  | .edgeRemoved edge =>
      some (.removeEdge edge.edgeType (edgeDirectionToFb edge.direction) (createByteVector edge.other.bytes))
  | .labelAdded _ | .labelRemoved _ | .edgePropertySet _ _ _ _ | .edgePropertyRemoved _ _ _ | .nodeDeleted _
  | .nodeRestored => none

def operationToFb : WalOperation → Option FbWalOperation
  | .nodeEvent qid event =>
      (nodeEventToFb S event.event).map fun e =>
        .nodeEventWithTime (createByteVector qid.bytes) (asI64 event.time.val) e
  | .snapshotCheckpoint qid snapshotTime =>
      some (.snapshotCheckpoint (createByteVector qid.bytes) (asI64 snapshotTime.val))
  | .ingestOffsetCommit ingestId partition offset => some (.ingestOffsetCommit ingestId partition offset)
  | .nodeEvents _ _ | .domainIndexEvent _ _ | .rawEvent _ => none

/-- `encode_wal_record_fb`: a FlatBuffer where there is a schema for the operation, else the
record's JSON. -/
def encodeWalRecordFb (record : WalRecord) : List UInt8 :=
  match operationToFb S record.operation with
  | some operation => S.fbFinish ⟨asI64 record.seqNo, operation⟩
  | none => S.jsonToVec (record.toJson S)

def nodeEventOfFb : FbNodeEvent → Option NodeChangeEvent
  | .addProperty key value => (msgpackToPropertyValue S (readByteVector value)).map (.propertySet key)
  | .removeProperty key value => (msgpackToPropertyValue S (readByteVector value)).map (.propertyRemoved key)
  | .addEdge edgeType direction otherId =>
      some (.edgeAdded ⟨edgeType, fbEdgeDirectionToRust direction, ⟨readByteVector otherId⟩⟩)
  | .removeEdge edgeType direction otherId =>
      some (.edgeRemoved ⟨edgeType, fbEdgeDirectionToRust direction, ⟨readByteVector otherId⟩⟩)
  | .unsupported => none

def operationOfFb : FbWalOperation → Option WalOperation
  | .nodeEventWithTime qid eventTime event =>
      (nodeEventOfFb S event).map fun e => .nodeEvent ⟨readByteVector qid⟩ ⟨e, eventTimeOfI64 eventTime⟩
  | .snapshotCheckpoint qid snapshotTime =>
      some (.snapshotCheckpoint ⟨readByteVector qid⟩ (eventTimeOfI64 snapshotTime))
  | .ingestOffsetCommit ingestId partition offset => some (.ingestOffsetCommit ingestId partition offset)
  | .unsupported => none

/-- `decode_wal_record_fb`. The buffer has no version, so the sequence number stands in for it. -/
def decodeWalRecordFb (data : List UInt8) : Option WalRecord := do
  let fb ← S.fbRoot data
  let operation ← operationOfFb S fb.operation
  return ⟨fb.seqNo.toUInt64.toNat, operation, fb.seqNo.toUInt64.toNat⟩

def hexByte (b : UInt8) : String :=
  String.ofList [Nat.digitChar (b.toNat / 16), Nat.digitChar (b.toNat % 16)]

def jsonDecode (message : String) (payload : List UInt8) : Except String WalRecord :=
  match (S.jsonFromSlice payload).bind (WalRecord.ofJson S) with
  | some record => .ok record
  | none => .error (message ++ S.jsonError payload)

/-- `decode_wal_record_auto`: the magic bytes choose the format, and a payload that is no FlatBuffer
is read as JSON. -/
def decodeWalRecordAuto (magic payload : List UInt8) (originalLen : Nat) :
    Except String WalRecord :=
  if magic = walMagicJson then jsonDecode S "JSON decode error: " payload
  else if magic = walMagicFb then
    let unpacked : Except String (List UInt8) :=
      if originalLen > 0 ∧ originalLen ≠ payload.length then PackedCodec.unpack payload originalLen else .ok payload
    match unpacked with
    | .error e => .error ("PackedCodec unpack error: Unpacking error: " ++ e)
    | .ok data =>
      match decodeWalRecordFb S data with
      | some record => .ok record
      | none => jsonDecode S "FlatBuffer/JSON decode error: " data
  else .error ("Unknown WAL magic: [" ++ ", ".intercalate (magic.map hexByte) ++ "]")

end Nexora
