import Nexora.Value

/-!
# Events and write-ahead-log records

The event types of `event.rs` and `raw_event.rs`, and the records of `wal/record.rs` that carry
them. Every change of a node is an event with a time; the log stores the events of one commit as one
record.
-/

namespace Nexora
open Lib

structure TombstoneRecord where
  deletedAt : EventTime
  deletedBy : Option String
  reason : Option String
deriving DecidableEq

structure TimedEvent (E : Type) where
  event : E
  time : EventTime

inductive NodeChangeEvent where
  | propertySet (key : Symbol) (value : PropertyValue)
  | propertyRemoved (key : Symbol) (previousValue : PropertyValue)
  | labelAdded (label : Symbol)
  | labelRemoved (label : Symbol)
  | edgeAdded (edge : HalfEdge)
  | edgeRemoved (edge : HalfEdge)
  | edgePropertySet (edgeType : Symbol) (target : NexoraId) (key : Symbol) (value : PropertyValue)
  | edgePropertyRemoved (edgeType : Symbol) (target : NexoraId) (key : Symbol)
  | nodeDeleted (tombstone : TombstoneRecord)
  | nodeRestored

abbrev NodeEvents := List (TimedEvent NodeChangeEvent)

structure Uuid where
  bits : BitVec 128
deriving DecidableEq

inductive DomainIndexEvent where
  | createDomainNodeSubscription (subscriberNexoraId : NexoraId) (dgnId : UInt64) (queryId : Uuid)
  | cancelDomainNodeSubscription (subscriberNexoraId : NexoraId) (dgnId : UInt64)
  | domainNodeSubscriptionResult (subscriberNexoraId : NexoraId) (dgnId : UInt64) (result : Bool)
  | createDomainStandingQuerySubscription (subscriberNexoraId : NexoraId) (dgnId : UInt64)

structure RawEvent where
  eventId : Uuid
  eventTimeUs : UInt64
  ingestTimeUs : UInt64
  source : String
  topic : String
  partition : Option Int32
  offset : Option Int64
  subject : Option String
  payload : Json

inductive WalOperation where
  | nodeEvent (qid : NexoraId) (event : TimedEvent NodeChangeEvent)
  | nodeEvents (qid : NexoraId) (events : NodeEvents)
  | domainIndexEvent (qid : NexoraId) (event : TimedEvent DomainIndexEvent)
  | snapshotCheckpoint (qid : NexoraId) (snapshotTime : EventTime)
  | ingestOffsetCommit (ingestId : String) (partition : Int32) (offset : Int64)
  | rawEvent (event : RawEvent)

def WalOperation.nexoraId : WalOperation → Option NexoraId
  | .nodeEvent qid _ => some qid
  | .nodeEvents qid _ => some qid
  | .domainIndexEvent qid _ => some qid
  | .snapshotCheckpoint qid _ => some qid
  | .ingestOffsetCommit _ _ _ => none
  | .rawEvent _ => none

structure WalRecord where
  seqNo : Nat
  operation : WalOperation
  version : Nat

end Nexora
