import Nexora.Lib.Bytes
import Nexora.Lib.Json
import Mathlib.Data.Finmap
import Mathlib.Order.Fin.Basic

/-!
# Identifiers, times and property values

The value types of `nexora-id` and `nexora-value`. A `BTreeMap` inside a property value is the list
of its entries in key order, and `PropertyValue.WellFormed` says that the keys are in order. Doubles
are bit patterns.
-/

namespace Nexora
open Lib

/-- Microseconds since the epoch, a `u64`. -/
abbrev EventTime := Fin (2 ^ 64)

namespace EventTime

def MAX : EventTime := ⟨2 ^ 64 - 1, maxWord_lt⟩

def MIN : EventTime := ⟨0, by decide⟩

/-- `from_micros(as_micros().saturating_add(1))`. -/
def saturatingSucc (t : EventTime) : EventTime :=
  if h : t.val + 1 < 2 ^ 64 then ⟨t.val + 1, h⟩ else MAX

theorem le_max (t : EventTime) : t ≤ MAX := by
  have := t.isLt
  simp only [MAX, Fin.le_def]
  omega

theorem saturatingSucc_le_iff (s t : EventTime) :
    saturatingSucc s ≤ t ↔ s < t ∨ (s = MAX ∧ t = MAX) := by
  have hs := s.isLt
  have ht := t.isLt
  unfold saturatingSucc
  split
  · simp only [Fin.le_def, Fin.lt_def, MAX, Fin.ext_iff]
    omega
  · simp only [MAX, Fin.le_def, Fin.lt_def, Fin.ext_iff]
    omega

theorem saturatingSucc_le_iff_lt {s : EventTime} (hs : s < MAX) (t : EventTime) :
    saturatingSucc s ≤ t ↔ s < t := by
  rw [saturatingSucc_le_iff]
  exact or_iff_left fun h => absurd h.1 hs.ne

end EventTime

/-- Opaque node identifier. The cached shard key is a function of the bytes and is left out. -/
structure NexoraId where
  bytes : List UInt8
deriving DecidableEq

/-- Interned property key, label or edge type. -/
abbrev Symbol := String

inductive EdgeDirection where
  | out
  | incoming
deriving DecidableEq

structure HalfEdge where
  edgeType : Symbol
  direction : EdgeDirection
  other : NexoraId
deriving DecidableEq

structure NaiveDate where
  daysFromCe : Int
deriving DecidableEq

structure NaiveDateTime where
  date : NaiveDate
  secs : Nat
  nanos : Nat
deriving DecidableEq

structure DurationValue where
  months : Int64
  days : Int64
  seconds : Int64
  nanoseconds : Int64
deriving DecidableEq

structure PointValue where
  x : F64
  y : F64
  z : Option F64
  srid : Int32
deriving DecidableEq

structure BlobRef where
  bucket : String
  entry : String
  timestampUs : UInt64
  size : UInt64
  contentType : String
  labels : List (String × String)
deriving DecidableEq

mutual

inductive PropertyValue where
  | null
  | boolean (b : Bool)
  | integer (i : Int64)
  | float (x : F64)
  | string (s : String)
  | bytes (b : List UInt8)
  | list (l : List PropertyValue)
  | map (m : List (String × PropertyValue))
  | node (n : NodeValue)
  | relationship (r : RelationshipValue)
  | path (nodes : List NodeValue) (relationships : List RelationshipValue)
  | date (d : NaiveDate)
  | localDateTime (d : NaiveDateTime)
  | zonedDateTime (d : NaiveDateTime)
  | duration (d : DurationValue)
  | point (p : PointValue)
  | blobRef (b : BlobRef)

inductive NodeValue where
  | mk (id : List UInt8) (labels : List String) (properties : List (String × PropertyValue))

inductive RelationshipValue where
  | mk (id : List UInt8) (relType : String) (startNodeId endNodeId : List UInt8)
      (properties : List (String × PropertyValue))

end

/-- The keys of a map's entries are in strictly increasing order, as a `BTreeMap` yields them. -/
def KeysSorted {V : Type} (m : List (String × V)) : Prop := m.Pairwise (fun a b => a.1 < b.1)

mutual

/-- Every map inside the value lists its keys in order. -/
def PropertyValue.WellFormed : PropertyValue → Prop
  | .list l => listWellFormed l
  | .map m => KeysSorted m ∧ entriesWellFormed m
  | .node n => n.WellFormed
  | .relationship r => r.WellFormed
  | .path nodes relationships => nodesWellFormed nodes ∧ relationshipsWellFormed relationships
  | .blobRef b => KeysSorted b.labels
  | _ => True

def NodeValue.WellFormed : NodeValue → Prop
  | .mk _ _ properties => KeysSorted properties ∧ entriesWellFormed properties

def RelationshipValue.WellFormed : RelationshipValue → Prop
  | .mk _ _ _ _ properties => KeysSorted properties ∧ entriesWellFormed properties

def listWellFormed : List PropertyValue → Prop
  | [] => True
  | v :: rest => v.WellFormed ∧ listWellFormed rest

def entriesWellFormed : List (String × PropertyValue) → Prop
  | [] => True
  | (_, v) :: rest => v.WellFormed ∧ entriesWellFormed rest

def nodesWellFormed : List NodeValue → Prop
  | [] => True
  | n :: rest => n.WellFormed ∧ nodesWellFormed rest

def relationshipsWellFormed : List RelationshipValue → Prop
  | [] => True
  | r :: rest => r.WellFormed ∧ relationshipsWellFormed rest

end
end Nexora
