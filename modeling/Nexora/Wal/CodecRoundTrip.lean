import Nexora.Lib.Table
import Nexora.Wal.Codec
import Mathlib.Data.String.Basic

/-!
# Which records survive their encoding

A record is decoded back to itself exactly when the libraries can carry its values: on the
FlatBuffers path the MessagePack of its property value must not be nested too deeply, and on the
JSON path neither must the document, and every double in it must be finite and survive its decimal
text.
-/

namespace Nexora
open Lib List Option Json

/-! ### What reads back from JSON -/

/-- A double that JSON carries: it is finite, and reading its text gives the same double. -/
def Serde.FloatReadsBack (S : Serde) (x : F64) : Prop := x.isFinite ∧ S.jsonFloat x = x

def Serde.PointReadsBack (S : Serde) (p : PointValue) : Prop :=
  S.FloatReadsBack p.x ∧ S.FloatReadsBack p.y ∧ ∀ z ∈ p.z, S.FloatReadsBack z

mutual

/-- Every double, date and date-time inside the value survives its JSON text. -/
def PropertyValue.JsonReadsBack (S : Serde) : PropertyValue → Prop
  | .float x => S.FloatReadsBack x
  | .list l => listJsonReadsBack S l
  | .map m => entriesJsonReadBack S m
  | .node n => n.JsonReadsBack S
  | .relationship r => r.JsonReadsBack S
  | .path nodes relationships => nodesJsonReadBack S nodes ∧ relationshipsJsonReadBack S relationships
  | .date d => S.dateParse (S.dateText d) = some d
  | .localDateTime d => S.dateTimeParse (S.dateTimeText d) = some d
  | .zonedDateTime d => S.utcParse (S.utcText d) = some d
  | .point p => S.PointReadsBack p
  | _ => True

def NodeValue.JsonReadsBack (S : Serde) : NodeValue → Prop
  | .mk _ _ properties => entriesJsonReadBack S properties

def RelationshipValue.JsonReadsBack (S : Serde) : RelationshipValue → Prop
  | .mk _ _ _ _ properties => entriesJsonReadBack S properties

def listJsonReadsBack (S : Serde) : List PropertyValue → Prop
  | [] => True
  | v :: rest => v.JsonReadsBack S ∧ listJsonReadsBack S rest

def entriesJsonReadBack (S : Serde) : List (String × PropertyValue) → Prop
  | [] => True
  | (_, v) :: rest => v.JsonReadsBack S ∧ entriesJsonReadBack S rest

def nodesJsonReadBack (S : Serde) : List NodeValue → Prop
  | [] => True
  | n :: rest => n.JsonReadsBack S ∧ nodesJsonReadBack S rest

def relationshipsJsonReadBack (S : Serde) : List RelationshipValue → Prop
  | [] => True
  | r :: rest => r.JsonReadsBack S ∧ relationshipsJsonReadBack S rest

end

/-! ### Leaves -/

theorem u8OfJson_toNat (x : UInt8) : u8OfJson (.int x.toNat) = some x := by
  have := x.toNat_lt
  simp only [u8OfJson, Int.toNat_natCast, UInt8.ofNat_toNat]
  rw [if_pos (by omega)]

theorem u64OfJson_toNat (x : UInt64) : u64OfJson (.int x.toNat) = some x := by
  have := x.toNat_lt
  simp only [u64OfJson, Int.toNat_natCast, UInt64.ofNat_toNat]
  rw [if_pos (by omega)]

theorem i32OfJson_toInt (x : Int32) : i32OfJson (.int x.toInt) = some x := by
  have h1 := x.le_toInt
  have h2 := x.toInt_lt
  simp only [i32OfJson, Int32.ofInt_toInt]
  rw [if_pos ⟨h1, h2⟩]

theorem i64OfJson_toInt (x : Int64) : i64OfJson (.int x.toInt) = some x := by
  have h1 := x.le_toInt
  have h2 := x.toInt_lt
  simp only [i64OfJson, Int64.ofInt_toInt]
  rw [if_pos ⟨h1, h2⟩]

theorem mapM_some_of_forall {A B : Type} {f : A → Option B} {g : B → A} (h : ∀ b, f (g b) = some b)
    (l : List B) :
    (l.map g).mapM f = some l := by
  induction l with
  | nil => rfl
  | cons b rest ih => rw [map_cons, mapM_cons, h, ih]; rfl

variable (f : F64 → F64)

theorem EventTime.ofJson_toJson (t : EventTime) :
    EventTime.ofJson ((EventTime.toJson t).mapFloat f) = some t := by
  have := t.isLt
  simp only [ofJson, toJson, mapFloat, Int.toNat_natCast]
  rw [dif_pos this, if_pos (Int.natCast_nonneg _)]

theorem bytesOfJson_bytesToJson (b : List UInt8) :
    bytesOfJson ((bytesToJson b).mapFloat f) = some b := by
  simp only [bytesToJson, mapFloat, mapFloatItems_eq_map, List.map_map]
  exact mapM_some_of_forall u8OfJson_toNat b

theorem stringsOfJson (l : List String) :
    itemsOfJson stringOfJson (.arr (l.map (mapFloat f ∘ str))) = some l :=
  mapM_some_of_forall (f := stringOfJson) (g := mapFloat f ∘ str) (fun _ => rfl) l

theorem f64OfJson_iff (S : Serde) (x : F64) :
    f64OfJson ((f64ToJson x).mapFloat S.jsonFloat) = some x ↔ S.FloatReadsBack x := by
  unfold f64ToJson Serde.FloatReadsBack
  split
  · next h => simp [mapFloat, f64OfJson, h]
  · next h => simp [mapFloat, f64OfJson, h]

theorem PointValue.ofJson_iff (S : Serde) (p : PointValue) :
    PointValue.ofJson (p.toJson.mapFloat S.jsonFloat) = some p ↔ S.PointReadsBack p := by
  obtain ⟨x, y, z, srid⟩ := p
  have hz : optionOfJson f64OfJson ((optionToJson f64ToJson z).mapFloat S.jsonFloat) = some z ↔
      ∀ w ∈ z, S.FloatReadsBack w := by
    cases z with
    | none => simp [optionToJson, mapFloat, optionOfJson]
    | some w =>
      simp only [optionToJson, mem_def, some.injEq, forall_eq', ← f64OfJson_iff]
      unfold f64ToJson
      split <;> simp [mapFloat, optionOfJson, f64OfJson]
  have hread : ofJson ((toJson ⟨x, y, z, srid⟩).mapFloat S.jsonFloat) = (do
      return ⟨← f64OfJson ((f64ToJson x).mapFloat S.jsonFloat), ← f64OfJson ((f64ToJson y).mapFloat S.jsonFloat),
        ← optionOfJson f64OfJson ((optionToJson f64ToJson z).mapFloat S.jsonFloat), ← i32OfJson (.int srid.toInt)⟩) := rfl
  rw [hread, i32OfJson_toInt, Serde.PointReadsBack, ← hz, ← f64OfJson_iff, ← f64OfJson_iff]
  cases f64OfJson ((f64ToJson x).mapFloat S.jsonFloat) <;> cases f64OfJson ((f64ToJson y).mapFloat S.jsonFloat) <;>
    cases optionOfJson f64OfJson ((optionToJson f64ToJson z).mapFloat S.jsonFloat) <;> simp

theorem DurationValue.ofJson_toJson (d : DurationValue) :
    DurationValue.ofJson (d.toJson.mapFloat f) = some d := by
  simp [toJson, ofJson, mapFloat, i64OfJson_toInt]

attribute [local simp] Json.mapFloat Json.mapFloatFields stringOfJson boolOfJson u64OfJson_toNat i32OfJson_toInt i64OfJson_toInt
  EventTime.ofJson_toJson bytesOfJson_bytesToJson stringsOfJson DurationValue.ofJson_toJson bind_eq_some_iff

/-! ### Maps -/

section BTree
variable {V : Type}

theorem keysSorted_iff_map (m : List (String × V)) :
    KeysSorted m ↔ (m.map Prod.fst).Pairwise (· < ·) :=
  (pairwise_map).symm

theorem btreeInsert_eq_putRow (k : String) (v : V) (m : List (String × V)) :
    btreeInsert k v m = putRow k v m := by
  induction m with
  | nil => rfl
  | cons entry rest ih => rw [btreeInsert, putRow, ih]

theorem btreeOfEntries_of_sorted (m : List (String × V)) (h : KeysSorted m) :
    btreeOfEntries m = m := by
  simp only [btreeOfEntries, btreeInsert_eq_putRow]
  show m.foldl _ (Table.empty : Table String V).rows = m
  exact (foldl_hom Table.rows fun _ _ => rfl).trans (Table.rows_putAll h)

end BTree

theorem entriesOfJson_keys (S : Serde) (fields : List (String × Json))
    (m : List (String × PropertyValue)) (h : entriesOfJson S fields = some m) :
    m.map Prod.fst = fields.map Prod.fst := by
  induction fields generalizing m with
  | nil =>
    cases h
    rfl
  | cons entry rest ih =>
    obtain ⟨k, j⟩ := entry
    rw [entriesOfJson, bind_eq_some_iff] at h
    obtain ⟨v, -, hrest⟩ := h
    obtain ⟨m', hm', rfl⟩ := map_eq_some_iff.mp hrest
    simp [ih m' hm']

section
variable (S : Serde) (m : List (String × PropertyValue))

theorem btree_entriesOfJson_iff (hm : KeysSorted m)
    (fields : List (String × Json)) (hkeys : fields.map Prod.fst = m.map Prod.fst) :
    (∃ m', entriesOfJson S fields = some m' ∧ btreeOfEntries m' = m) ↔
    entriesOfJson S fields = some m := by
  constructor
  · rintro ⟨m', hread, rfl⟩
    have hsorted : KeysSorted m' := by
      rw [keysSorted_iff_map, entriesOfJson_keys S fields m' hread, hkeys, ← keysSorted_iff_map]
      exact hm
    rw [btreeOfEntries_of_sorted m' hsorted, hread]
  · intro hread
    exact ⟨m, hread, btreeOfEntries_of_sorted m hm⟩

theorem keys_entriesToJson :
    (mapFloatFields S.jsonFloat (entriesToJson S m)).map Prod.fst = m.map Prod.fst := by
  induction m with
  | nil => rfl
  | cons entry rest ih =>
    obtain ⟨k, v⟩ := entry
    rw [entriesToJson, mapFloatFields, map_cons, map_cons, ih]

end

theorem BlobRef.ofJson_toJson (f : F64 → F64) (b : BlobRef) (hb : KeysSorted b.labels) :
    BlobRef.ofJson (b.toJson.mapFloat f) = some b := by
  have hlabels : stringEntriesOfJson ((obj (b.labels.map fun entry => (entry.1, .str entry.2))).mapFloat f) =
      some b.labels := by
    simp only [mapFloat, mapFloatFields_eq_map, List.map_map, stringEntriesOfJson]
    have hentries := mapM_some_of_forall
      (f := fun entry : String × Json => (stringOfJson entry.2).map (Prod.mk entry.1))
      (g := fun entry : String × String => (entry.1, mapFloat f (.str entry.2))) (fun _ => rfl) b.labels
    exact (congrArg (Option.map btreeOfEntries) hentries).trans (congrArg some (btreeOfEntries_of_sorted _ hb))
  simp only [BlobRef.toJson, mapFloat, mapFloatFields, BlobRef.ofJson, u64OfJson_toNat, stringOfJson]
  simp only [mapFloat] at hlabels
  rw [hlabels]
  rfl

/-! ### Property values -/

theorem bind_map_cons_iff {A : Type} (x : Option A) (y : Option (List A)) (a : A) (l : List A) :
    (x.bind fun b => y.map (b :: ·)) = some (a :: l) ↔ x = some a ∧ y = some l := by
  cases x <;> cases y <;> simp

theorem bind_map_entry_iff {V : Type} (k : String) (x : Option V) (y : Option (List (String × V)))
    (v : V) (l : List (String × V)) :
    (x.bind fun b => y.map ((k, b) :: ·)) = some ((k, v) :: l) ↔ x = some v ∧ y = some l := by
  cases x <;> cases y <;> simp

attribute [local simp] PropertyValue.toJson PropertyValue.ofJson PropertyValue.JsonReadsBack

mutual

/-- **A property value read back from its JSON.** By recursion on the value: the leaves that can be
lost are the doubles and the dates. -/
theorem PropertyValue.ofJson_iff (S : Serde) : (v : PropertyValue) → v.WellFormed →
    (PropertyValue.ofJson S ((v.toJson S).mapFloat S.jsonFloat) = some v ↔ v.JsonReadsBack S)
  | .null, _ => iff_of_true rfl trivial
  | .boolean _, _ => iff_of_true rfl trivial
  | .string _, _ => iff_of_true rfl trivial
  | .integer i, _ => by simp
  | .float x, _ => by simpa using f64OfJson_iff S x
  | .bytes b, _ => by simp
  | .list l, h => by simpa using listOfJson_iff S l h
  | .map m, h => by
    have hread := btree_entriesOfJson_iff S m h.1 _ (keys_entriesToJson S m)
    simpa using
      hread.trans (entriesOfJson_iff S m h.2)
  | .node n, h => by simpa using NodeValue.ofJson_iff S n h
  | .relationship r, h => by simpa using RelationshipValue.ofJson_iff S r h
  | .path nodes relationships, h => by
    simpa using
      and_congr (nodesOfJson_iff S nodes h.1) (relationshipsOfJson_iff S relationships h.2)
  | .date d, _ => by simp
  | .localDateTime d, _ => by simp
  | .zonedDateTime d, _ => by simp
  | .duration d, _ => by simp
  | .point p, _ => by simpa using PointValue.ofJson_iff S p
  | .blobRef b, h => by simp [BlobRef.ofJson_toJson S.jsonFloat b h]

theorem NodeValue.ofJson_iff (S : Serde) : (n : NodeValue) → n.WellFormed →
    (NodeValue.ofJson S ((n.toJson S).mapFloat S.jsonFloat) = some n ↔ n.JsonReadsBack S)
  | .mk id labels properties, h => by
    have hread := btree_entriesOfJson_iff S properties h.1 _ (keys_entriesToJson S properties)
    simpa [NodeValue.toJson, NodeValue.ofJson, NodeValue.JsonReadsBack] using hread.trans
      (entriesOfJson_iff S properties h.2)

theorem RelationshipValue.ofJson_iff (S : Serde) : (r : RelationshipValue) → r.WellFormed →
    (RelationshipValue.ofJson S ((r.toJson S).mapFloat S.jsonFloat) = some r ↔ r.JsonReadsBack S)
  | .mk id relType startNodeId endNodeId properties, h => by
    have hread := btree_entriesOfJson_iff S properties h.1 _ (keys_entriesToJson S properties)
    simpa [RelationshipValue.toJson, RelationshipValue.ofJson, RelationshipValue.JsonReadsBack] using
      hread.trans (entriesOfJson_iff S properties h.2)

theorem listOfJson_iff (S : Serde) : (l : List PropertyValue) → listWellFormed l →
    (listOfJson S (mapFloatItems S.jsonFloat (listToJson S l)) = some l ↔ listJsonReadsBack S l)
  | [], _ => iff_of_true rfl trivial
  | v :: rest, h =>
    (bind_map_cons_iff _ _ v rest).trans
      (and_congr (PropertyValue.ofJson_iff S v h.1) (listOfJson_iff S rest h.2))

theorem entriesOfJson_iff (S : Serde) : (m : List (String × PropertyValue)) → entriesWellFormed m →
    (entriesOfJson S (mapFloatFields S.jsonFloat (entriesToJson S m)) = some m ↔ entriesJsonReadBack S m)
  | [], _ => iff_of_true rfl trivial
  | (k, v) :: rest, h =>
    (bind_map_entry_iff k _ _ v rest).trans
      (and_congr (PropertyValue.ofJson_iff S v h.1) (entriesOfJson_iff S rest h.2))

theorem nodesOfJson_iff (S : Serde) : (l : List NodeValue) → nodesWellFormed l →
    (nodesOfJson S (mapFloatItems S.jsonFloat (nodesToJson S l)) = some l ↔ nodesJsonReadBack S l)
  | [], _ => iff_of_true rfl trivial
  | n :: rest, h =>
    (bind_map_cons_iff _ _ n rest).trans
      (and_congr (NodeValue.ofJson_iff S n h.1) (nodesOfJson_iff S rest h.2))

theorem relationshipsOfJson_iff (S : Serde) :
    (l : List RelationshipValue) → relationshipsWellFormed l →
    (relationshipsOfJson S (mapFloatItems S.jsonFloat (relationshipsToJson S l)) = some l ↔
      relationshipsJsonReadBack S l)
  | [], _ => iff_of_true rfl trivial
  | r :: rest, h =>
    (bind_map_cons_iff _ _ r rest).trans
      (and_congr (RelationshipValue.ofJson_iff S r h.1) (relationshipsOfJson_iff S rest h.2))

end

/-! ### Events and operations -/

def NodeChangeEvent.WellFormed : NodeChangeEvent → Prop
  | .propertySet _ value => value.WellFormed
  | .propertyRemoved _ previousValue => previousValue.WellFormed
  | .edgePropertySet _ _ _ value => value.WellFormed
  | _ => True

def WalOperation.WellFormed : WalOperation → Prop
  | .nodeEvent _ event => event.event.WellFormed
  | .nodeEvents _ events => ∀ event ∈ events, event.event.WellFormed
  | _ => True

def NodeChangeEvent.JsonReadsBack (S : Serde) : NodeChangeEvent → Prop
  | .propertySet _ value => value.JsonReadsBack S
  | .propertyRemoved _ previousValue => previousValue.JsonReadsBack S
  | .edgePropertySet _ _ _ value => value.JsonReadsBack S
  | _ => True

variable (S : Serde)

def DomainIndexEvent.JsonReadsBack : DomainIndexEvent → Prop
  | .createDomainNodeSubscription _ _ queryId => S.uuidParse (S.uuidText queryId) = some queryId
  | _ => True

/-- Every double, date and identifier text inside the operation survives its JSON text. -/
def WalOperation.JsonReadsBack (S : Serde) : WalOperation → Prop
  | .nodeEvent _ event => event.event.JsonReadsBack S
  | .nodeEvents _ events => ∀ event ∈ events, event.event.JsonReadsBack S
  | .domainIndexEvent _ event => event.event.JsonReadsBack S
  | .rawEvent event =>
      S.uuidParse (S.uuidText event.eventId) = some event.eventId ∧ event.payload.mapFloat S.jsonFloat = event.payload
  | _ => True

section
variable (f : F64 → F64)

theorem NexoraId.ofJson_toJson (qid : NexoraId) :
    NexoraId.ofJson (qid.toJson.mapFloat f) = some qid := by
  rw [ofJson, toJson, bytesOfJson_bytesToJson, map_some]

theorem HalfEdge.ofJson_toJson (e : HalfEdge) : HalfEdge.ofJson (e.toJson.mapFloat f) = some e := by
  obtain ⟨edgeType, direction, other⟩ := e
  cases direction <;>
    simp [toJson, ofJson, EdgeDirection.toJson, EdgeDirection.ofJson, NexoraId.ofJson_toJson]

theorem optionOfJson_str (s : Option String) :
    optionOfJson stringOfJson ((optionToJson .str s).mapFloat f) = some s := by
  cases s <;> rfl

theorem TombstoneRecord.ofJson_toJson (t : TombstoneRecord) :
    TombstoneRecord.ofJson (t.toJson.mapFloat f) = some t := by
  simp [toJson, ofJson, optionOfJson_str]

end

attribute [local simp] NexoraId.ofJson_toJson HalfEdge.ofJson_toJson TombstoneRecord.ofJson_toJson

theorem NodeChangeEvent.ofJson_iff (S : Serde) (e : NodeChangeEvent) (h : e.WellFormed) :
    NodeChangeEvent.ofJson S ((e.toJson S).mapFloat S.jsonFloat) = some e ↔ e.JsonReadsBack S := by
  cases e with
  | propertySet key value | propertyRemoved key value | edgePropertySet edgeType target key value =>
    simpa [toJson, ofJson, NodeChangeEvent.JsonReadsBack] using
      PropertyValue.ofJson_iff S value h
  | _ => simp [NodeChangeEvent.toJson, NodeChangeEvent.ofJson, NodeChangeEvent.JsonReadsBack]

theorem DomainIndexEvent.ofJson_iff (e : DomainIndexEvent) :
    DomainIndexEvent.ofJson S ((e.toJson S).mapFloat S.jsonFloat) = some e ↔ e.JsonReadsBack S := by
  cases e <;> simp [toJson, ofJson, DomainIndexEvent.JsonReadsBack]

theorem TimedEvent.ofJson_iff {E : Type} (f : F64 → F64) (toJ : E → Json) (ofJ : Json → Option E)
    (t : TimedEvent E) :
    TimedEvent.ofJson ofJ ((t.toJson toJ).mapFloat f) = some t ↔
    ofJ ((toJ t.event).mapFloat f) = some t.event := by
  obtain ⟨event, time⟩ := t
  simp [toJson, ofJson]

theorem RawEvent.ofJson_iff (e : RawEvent) :
    RawEvent.ofJson S ((e.toJson S).mapFloat S.jsonFloat) = some e ↔
      S.uuidParse (S.uuidText e.eventId) = some e.eventId ∧ e.payload.mapFloat S.jsonFloat = e.payload := by
  obtain ⟨eventId, eventTimeUs, ingestTimeUs, source, topic, partition, offset, subject, payload⟩ :=
    e
  have hpartition : optionOfJson i32OfJson
      ((optionToJson (fun p : Int32 => int p.toInt) partition).mapFloat S.jsonFloat) = some partition := by
    cases partition with
    | none => rfl
    | some p => exact congrArg (Option.map some) (i32OfJson_toInt p)
  have hoffset : optionOfJson i64OfJson
      ((optionToJson (fun o : Int64 => int o.toInt) offset).mapFloat S.jsonFloat) = some offset := by
    cases offset with
    | none => rfl
    | some o => exact congrArg (Option.map some) (i64OfJson_toInt o)
  simp only [RawEvent.toJson, mapFloat, mapFloatFields, RawEvent.ofJson, u64OfJson_toNat, stringOfJson,
    hpartition, hoffset, optionOfJson_str, bind_some]
  cases S.uuidParse (S.uuidText eventId) <;> simp

theorem events_ofJson_iff (events : NodeEvents) (h : ∀ event ∈ events, event.event.WellFormed) :
    itemsOfJson (TimedEvent.ofJson (NodeChangeEvent.ofJson S))
      ((Json.arr (events.map fun event => event.toJson (NodeChangeEvent.toJson S))).mapFloat S.jsonFloat) = some events ↔
    ∀ event ∈ events, event.event.JsonReadsBack S := by
  simp only [mapFloat, mapFloatItems_eq_map, List.map_map, itemsOfJson]
  induction events with
  | nil => exact iff_of_true rfl (by simp)
  | cons event rest ih =>
    have hevent := (TimedEvent.ofJson_iff S.jsonFloat (NodeChangeEvent.toJson S) (NodeChangeEvent.ofJson S) event).trans
      (NodeChangeEvent.ofJson_iff S event.event (h event List.mem_cons_self))
    have hrest := ih fun e he => h e (mem_cons_of_mem _ he)
    rw [forall_mem_cons, ← hevent, ← hrest, map_cons, mapM_cons, Function.comp_apply]
    generalize TimedEvent.ofJson (NodeChangeEvent.ofJson S) _ = first
    generalize List.mapM (m := Option) _ (rest.map _) = others
    cases first <;> cases others <;> simp

theorem WalOperation.ofJson_iff (S : Serde) (op : WalOperation) (h : op.WellFormed) :
    WalOperation.ofJson S ((op.toJson S).mapFloat S.jsonFloat) = some op ↔ op.JsonReadsBack S := by
  cases op with
  | nodeEvent qid event =>
    simpa [toJson, ofJson, WalOperation.JsonReadsBack, TimedEvent.ofJson_iff] using
      NodeChangeEvent.ofJson_iff S event.event h
  | nodeEvents qid events =>
    simpa [toJson, ofJson, WalOperation.JsonReadsBack] using events_ofJson_iff S events h
  | domainIndexEvent qid event =>
    simpa [toJson, ofJson, WalOperation.JsonReadsBack, TimedEvent.ofJson_iff] using
      DomainIndexEvent.ofJson_iff S event.event
  | rawEvent event =>
    simpa [toJson, ofJson, WalOperation.JsonReadsBack] using RawEvent.ofJson_iff S event
  | _ => simp [toJson, ofJson, WalOperation.JsonReadsBack]

variable {seq version : Nat}

theorem WalRecord.ofJson_iff (S : Serde) (op : WalOperation) (hseq : seq < 2 ^ 64)
    (hversion : version < 2 ^ 64) (h : op.WellFormed) :
    WalRecord.ofJson S ((WalRecord.toJson S ⟨seq, op, version⟩).mapFloat S.jsonFloat) = some ⟨seq, op, version⟩ ↔
      op.JsonReadsBack S := by
  have hnum : ∀ {n : Nat}, n < 2 ^ 64 → u64OfJson (.int n) = some (UInt64.ofNat n) := by
    intro n hn
    rw [u64OfJson, if_pos (by omega), Int.toNat_natCast]
  have hback : ∀ {n : Nat}, n < 2 ^ 64 → (UInt64.ofNat n).toNat = n :=
    fun hn => UInt64.toNat_ofNat_of_lt' hn
  change (u64OfJson (.int seq)).bind (fun s => (WalOperation.ofJson S ((op.toJson S).mapFloat S.jsonFloat)).bind fun o =>
    (u64OfJson (.int version)).bind fun v => some (WalRecord.mk s.toNat o v.toNat)) = _ ↔ _
  rw [hnum hseq, hnum hversion, bind_some, ← WalOperation.ofJson_iff S op h]
  cases ofJson S ((op.toJson S).mapFloat S.jsonFloat) <;> simp [hback hseq, hback hversion]

/-! ### Records -/

/-- `serde_json` gives up when it would open more arrays and objects inside one another. -/
def jsonDepthLimit : Nat := 128

/-- `rmp-serde` gives up when values are nested more deeply. -/
def msgpackDepthLimit : Nat := 1024

/-- The property value that travels as MessagePack inside the operation's FlatBuffer. -/
def WalOperation.msgpackValue : WalOperation → Option PropertyValue
  | .nodeEvent _ ⟨.propertySet _ value, _⟩ => some value
  | .nodeEvent _ ⟨.propertyRemoved _ previousValue, _⟩ => some previousValue
  | _ => none

/-- What the libraries promise about the bytes of one record. `serde_json` reads a document it
wrote, up to its nesting limit and with the doubles it reads from their texts; `flatbuffers` reads a
buffer it wrote, its verifier refuses the text of a JSON object, whose first bytes are no offset of
a table, and a buffer, which has zero bytes, is no JSON; `rmp-serde` reads a value it wrote, up to
its own nesting limit. -/
structure Serde.Documented (S : Serde) (record : WalRecord) : Prop where
  json : operationToFb S record.operation = none → S.jsonFromSlice (S.jsonToVec (record.toJson S)) =
    if (record.toJson S).depth < jsonDepthLimit then some ((record.toJson S).mapFloat S.jsonFloat) else none
  jsonNoBuffer : operationToFb S record.operation = none → S.fbRoot (S.jsonToVec (record.toJson S)) = none
  buffer : ∀ operation, operationToFb S record.operation = some operation →
    S.fbRoot (S.fbFinish ⟨asI64 record.seqNo, operation⟩) = some ⟨asI64 record.seqNo, operation⟩
  bufferNoJson : ∀ operation, operationToFb S record.operation = some operation →
    S.jsonFromSlice (S.fbFinish ⟨asI64 record.seqNo, operation⟩) = none
  msgpack : ∀ value, record.operation.msgpackValue = some value → ∃ data, S.msgpackToVec value = some data ∧
    (S.msgpackDepth value < msgpackDepthLimit → S.msgpackFromSlice data = some value) ∧
    (¬ S.msgpackDepth value < msgpackDepthLimit → S.msgpackFromSlice data = none ∧ S.jsonFromSlice data = none)

/-- What the operation must be like for its record to be read back. -/
def WalOperation.Survives (seq : Nat) : WalOperation → Prop
  | .nodeEvent _ ⟨.propertySet _ value, _⟩ => S.msgpackDepth value < msgpackDepthLimit
  | .nodeEvent _ ⟨.propertyRemoved _ previousValue, _⟩ => S.msgpackDepth previousValue < msgpackDepthLimit
  | .nodeEvent _ ⟨.edgeAdded _, _⟩ => True
  | .nodeEvent _ ⟨.edgeRemoved _, _⟩ => True
  | .snapshotCheckpoint _ _ => True
  | .ingestOffsetCommit _ _ _ => True
  | op => (WalRecord.toJson S ⟨seq, op, seq⟩).depth < jsonDepthLimit ∧ op.JsonReadsBack S

theorem readByteVector_createByteVector (data : List UInt8) :
    readByteVector (createByteVector data) = data := by
  simp [readByteVector, createByteVector, List.map_map, Function.comp_def]

theorem eventTimeOfI64_asI64 (t : EventTime) : eventTimeOfI64 (asI64 t.val) = t := by
  apply Fin.ext
  simp only [eventTimeOfI64, asI64, UInt64.toUInt64_toInt64]
  exact UInt64.toNat_ofNat_of_lt' t.isLt

theorem fbEdgeDirectionToRust_edgeDirectionToFb (d : EdgeDirection) :
    fbEdgeDirectionToRust (edgeDirectionToFb d) = d := by
  cases d <;> rfl

theorem msgpackToPropertyValue_iff (record : WalRecord) (hS : S.Documented record)
    (value : PropertyValue) (hvalue : record.operation.msgpackValue = some value) :
    msgpackToPropertyValue S (propertyValueToMsgpack S value) =
      if S.msgpackDepth value < msgpackDepthLimit then some value else none := by
  obtain ⟨data, hdata, hshallow, hdeep⟩ := hS.msgpack value hvalue
  have hbytes : propertyValueToMsgpack S value = data := by rw [propertyValueToMsgpack, hdata, getD_some]
  rw [hbytes, msgpackToPropertyValue]
  split
  · next h => rw [hshallow h, some_or]
  · next h => rw [(hdeep h).1, (hdeep h).2]; rfl

theorem decodeWalRecordAuto_fb (data : List UInt8) :
    decodeWalRecordAuto S walMagicFb data 0 = match decodeWalRecordFb S data with
      | some record => .ok record
      | none => jsonDecode S "FlatBuffer/JSON decode error: " data := by
  rw [decodeWalRecordAuto, if_neg (by decide), if_pos rfl]
  cases hdecode : decodeWalRecordFb S data <;>
    simp [hdecode]

theorem jsonDecode_eq_ok_iff (message : String) (data : List UInt8) (record : WalRecord) :
    jsonDecode S message data = .ok record ↔ (S.jsonFromSlice data).bind (WalRecord.ofJson S) = some record := by
  rw [jsonDecode]
  cases (S.jsonFromSlice data).bind (WalRecord.ofJson S) <;> simp

theorem decodeWalRecordAuto_json (record : WalRecord) (hS : S.Documented record)
    (hop : operationToFb S record.operation = none) :
    decodeWalRecordAuto S walMagicFb (encodeWalRecordFb S record) 0 = .ok record ↔
      (record.toJson S).depth < jsonDepthLimit ∧
        WalRecord.ofJson S ((record.toJson S).mapFloat S.jsonFloat) = some record := by
  have hencode : encodeWalRecordFb S record = S.jsonToVec (record.toJson S) := by rw [encodeWalRecordFb, hop]
  have hnone : decodeWalRecordFb S (encodeWalRecordFb S record) = none := by
    rw [hencode, decodeWalRecordFb, hS.jsonNoBuffer hop]; rfl
  have hread := hS.json hop
  rw [decodeWalRecordAuto_fb, hnone]
  simp only [jsonDecode_eq_ok_iff]
  rw [hencode, hread]
  split_ifs with hdepth
  · rw [bind_some]
    exact (and_iff_right hdepth).symm
  · exact iff_of_false (by simp) fun h => hdepth h.1

theorem decodeWalRecordAuto_buffer (op : WalOperation) (hseq : seq < 2 ^ 64)
    (hS : S.Documented ⟨seq, op, version⟩) (operation : FbWalOperation)
    (hop : operationToFb S op = some operation) :
    decodeWalRecordAuto S walMagicFb (encodeWalRecordFb S ⟨seq, op, version⟩) 0 = .ok ⟨seq, op, version⟩ ↔
      operationOfFb S operation = some op ∧ ((operationToFb S op).isSome → version = seq) := by
  have hencode : encodeWalRecordFb S ⟨seq, op, version⟩ = S.fbFinish ⟨asI64 seq, operation⟩ := by
    simp [encodeWalRecordFb, hop]
  have hback : (asI64 seq).toUInt64.toNat = seq := by
    rw [asI64, UInt64.toUInt64_toInt64]
    exact UInt64.toNat_ofNat_of_lt' hseq
  have hdecode : decodeWalRecordFb S (S.fbFinish ⟨asI64 seq, operation⟩) =
      (operationOfFb S operation).map fun o => ⟨seq, o, seq⟩ := by
    rw [decodeWalRecordFb, hS.buffer operation hop]
    cases h : operationOfFb S operation <;> simp [h, hback]
  have hnojson := hS.bufferNoJson operation hop
  rw [hencode, decodeWalRecordAuto_fb, hdecode, hop]
  cases operationOfFb S operation with
  | none => simp [jsonDecode_eq_ok_iff, hnojson]
  | some o => simp [eq_comm]

/-- A buffer has no version, so a record in one must have the sequence number as its version. -/
theorem decodeWalRecordAuto_eq_ok_iff (op : WalOperation) (hseq : seq < 2 ^ 64)
    (hversion : version < 2 ^ 64) (hop : op.WellFormed) (hS : S.Documented ⟨seq, op, version⟩) :
    decodeWalRecordAuto S walMagicFb (encodeWalRecordFb S ⟨seq, op, version⟩) 0 = .ok ⟨seq, op, version⟩ ↔
      op.Survives S seq ∧ ((operationToFb S op).isSome → version = seq) := by
  have hjson : operationToFb S op = none →
      (decodeWalRecordAuto S walMagicFb (encodeWalRecordFb S ⟨seq, op, version⟩) 0 = .ok ⟨seq, op, version⟩ ↔
        ((WalRecord.toJson S ⟨seq, op, seq⟩).depth < jsonDepthLimit ∧ op.JsonReadsBack S) ∧
          ((operationToFb S op).isSome → version = seq)) := by
    intro h
    rw [decodeWalRecordAuto_json S _ hS h, WalRecord.ofJson_iff S op hseq hversion hop, h]
    exact (and_iff_left (by simp)).symm
  have hbuffer := decodeWalRecordAuto_buffer S op hseq hS
  have hvalue := msgpackToPropertyValue_iff S _ hS
  cases op with
  | nodeEvent qid event =>
    obtain ⟨event, time⟩ := event
    cases event with
    | propertySet key value | propertyRemoved key value =>
      rw [hbuffer _ rfl]
      refine and_congr_left' ?_
      simp only [operationOfFb, nodeEventOfFb, readByteVector_createByteVector, eventTimeOfI64_asI64, hvalue value rfl]
      split_ifs with h
      · exact iff_of_true rfl h
      · exact iff_of_false (by simp) h
    | edgeAdded edge | edgeRemoved edge =>
      rw [hbuffer _ rfl]
      refine and_congr_left' (iff_of_true ?_ trivial)
      simp only [operationOfFb, nodeEventOfFb, readByteVector_createByteVector, eventTimeOfI64_asI64,
        fbEdgeDirectionToRust_edgeDirectionToFb, map_some]
    | labelAdded | labelRemoved | edgePropertySet | edgePropertyRemoved | nodeDeleted | nodeRestored => exact hjson rfl
  | nodeEvents | domainIndexEvent => exact hjson rfl
  | snapshotCheckpoint qid snapshotTime =>
    rw [hbuffer _ rfl]
    refine and_congr_left' (iff_of_true ?_ trivial)
    simp [operationOfFb, readByteVector_createByteVector, eventTimeOfI64_asI64]
  | ingestOffsetCommit ingestId partition offset =>
    rw [hbuffer _ rfl]
    exact and_congr_left' (iff_of_true rfl trivial)
  | rawEvent event => exact hjson rfl

/-- **What the codec carries.** The decoder gives back the record exactly when its operation
survives. -/
theorem decodeWalRecordAuto_encodeWalRecordFb_iff (S : Serde) (seq : Nat) (op : WalOperation)
    (hseq : seq < 2 ^ 64) (hop : op.WellFormed) (hS : S.Documented ⟨seq, op, seq⟩) :
    decodeWalRecordAuto S walMagicFb (encodeWalRecordFb S ⟨seq, op, seq⟩) 0 = .ok ⟨seq, op, seq⟩ ↔
      op.Survives S seq := by
  rw [decodeWalRecordAuto_eq_ok_iff S op hseq hseq hop hS]
  exact and_iff_left fun _ => rfl

/-- Libraries that read back these documents, and as a buffer the checkpoint of the node `[1]` at
time 20. -/
def sampleLibraries (documents : List Json) : Serde where
  jsonToVec := render fun _ => "1.5"
  jsonFromSlice := fun data => documents.find? fun document => document.render (fun _ => "1.5") = data
  jsonError := fun _ => "invalid type: null, expected f64"
  jsonFloat := id
  msgpackToVec := fun _ => none
  msgpackFromSlice := fun _ => none
  msgpackDepth := fun _ => 0
  fbFinish := fun _ => []
  fbRoot := fun data => if data = [] then some ⟨asI64 2, .snapshotCheckpoint (createByteVector [1]) (asI64 20)⟩ else none
  dateText := fun _ => ""
  dateParse := fun _ => none
  dateTimeText := fun _ => ""
  dateTimeParse := fun _ => none
  utcText := fun _ => ""
  utcParse := fun _ => none
  uuidText := fun _ => ""
  uuidParse := fun _ => none

theorem sampleLibraries_read (document : Json) :
    (sampleLibraries [document]).jsonFromSlice (document.render fun _ => "1.5") = some document := by
  simp [sampleLibraries]

def propertyBatch (value : PropertyValue) : WalOperation :=
  .nodeEvents ⟨[1]⟩ [⟨.propertySet "k" value, ⟨5, by decide⟩⟩]

def propertyDocument (value : Json) : Json :=
  .obj [("seq_no", .int 1), ("operation", .obj [("NodeEvents", .obj [("qid", .arr [.int 1]),
    ("events", .arr [.obj [("event", .obj [("PropertySet", .obj [("key", .str "k"), ("value", value)])]),
      ("time", .int 5)]])])]), ("version", .int 1)]

def flagBatch : WalOperation := propertyBatch (.boolean true)

def flagLibraries : Serde := sampleLibraries [propertyDocument (.obj [("Boolean", .bool true)])]

def floatLibraries (x : F64) : Serde :=
  sampleLibraries [propertyDocument (.obj [("Float", f64ToJson x)])]

theorem floatLibraries_documented (x : F64) :
    (floatLibraries x).Documented ⟨1, propertyBatch (.float x), 1⟩ where
  json := fun _ => by
    have hdepth : (WalRecord.toJson (floatLibraries x) ⟨1, propertyBatch (.float x), 1⟩).depth = 8 := by
      change (propertyDocument (.obj [("Float", f64ToJson x)])).depth = 8
      unfold f64ToJson
      split <;> rfl
    have hfloats : (propertyDocument (.obj [("Float", f64ToJson x)])).mapFloat id =
        propertyDocument (.obj [("Float", f64ToJson x)]) := by
      unfold f64ToJson
      split <;> rfl
    rw [if_pos (by rw [hdepth]; decide)]
    exact (sampleLibraries_read _).trans (congrArg some hfloats.symm)
  jsonNoBuffer := fun _ => rfl
  buffer := fun _ h => nomatch h
  bufferNoJson := fun _ h => nomatch h
  msgpack := fun _ h => nomatch h

/-- A finite double in a batch is carried. -/
theorem decode_encode_one_and_a_half :
    (propertyBatch (.float ⟨0x3FF8000000000000#64⟩)).Survives (floatLibraries ⟨0x3FF8000000000000#64⟩) 1 ∧
      decodeWalRecordAuto (floatLibraries ⟨0x3FF8000000000000#64⟩) walMagicFb
        (encodeWalRecordFb (floatLibraries ⟨0x3FF8000000000000#64⟩)
          ⟨1, propertyBatch (.float ⟨0x3FF8000000000000#64⟩), 1⟩) 0 =
        .ok ⟨1, propertyBatch (.float ⟨0x3FF8000000000000#64⟩), 1⟩ := by
  have hread : (propertyBatch (.float ⟨0x3FF8000000000000#64⟩)).JsonReadsBack
      (floatLibraries ⟨0x3FF8000000000000#64⟩) := by
    intro event hevent
    rw [mem_singleton] at hevent
    subst hevent
    exact ⟨by decide, rfl⟩
  have hsurvives : (propertyBatch (.float ⟨0x3FF8000000000000#64⟩)).Survives
      (floatLibraries ⟨0x3FF8000000000000#64⟩) 1 := ⟨by decide, hread⟩
  refine ⟨hsurvives, ?_⟩
  refine (decodeWalRecordAuto_encodeWalRecordFb_iff _ 1 _ (by decide) ?_ ?_).mpr hsurvives
  · intro event hevent
    rw [mem_singleton] at hevent
    subst hevent
    trivial
  · exact floatLibraries_documented ⟨0x3FF8000000000000#64⟩

/-- A NaN in a batch is written as `null`, which is no double: the record is not decoded at all. -/
theorem nan_batch_not_decoded :
    (floatLibraries ⟨0x7FF8000000000000#64⟩).Documented ⟨1, propertyBatch (.float ⟨0x7FF8000000000000#64⟩), 1⟩ ∧
      decodeWalRecordAuto (floatLibraries ⟨0x7FF8000000000000#64⟩) walMagicFb
        (encodeWalRecordFb (floatLibraries ⟨0x7FF8000000000000#64⟩)
          ⟨1, propertyBatch (.float ⟨0x7FF8000000000000#64⟩), 1⟩) 0 =
        .error "FlatBuffer/JSON decode error: invalid type: null, expected f64" := by
  refine ⟨floatLibraries_documented ⟨0x7FF8000000000000#64⟩, ?_⟩
  set S := floatLibraries ⟨0x7FF8000000000000#64⟩ with hS
  have hread : S.jsonFromSlice (encodeWalRecordFb S ⟨1, propertyBatch (.float ⟨0x7FF8000000000000#64⟩), 1⟩) =
      some (propertyDocument (.obj [("Float", .null)])) := sampleLibraries_read _
  have hnone : WalRecord.ofJson S (propertyDocument (.obj [("Float", .null)])) = none := rfl
  rw [decodeWalRecordAuto_fb]
  change jsonDecode _ _ _ = _
  rw [jsonDecode, hread, bind_some, hnone]
  rfl

end Nexora
