import Nexora.Graph.Persistor
import Mathlib.Data.List.TakeWhile
import Mathlib.Order.Monotone.Basic

/-!
# The RocksDB backend over one ordered byte map

The RocksDB persistor keeps the rows of all nodes in one map under the namespace, the identifier
behind its length, the time and the place in the batch. The map holds for each node what
`RocksDbStore` holds of it, as no node's keys begin like those of another.
-/

namespace Nexora
open Lib List Function RocksDbStore

/-! ### Keys -/

def namespaceKeyMagic : List UInt8 := [0x51, 0x4E, 0x01]

/-- The default namespace keeps the layout without a namespace. -/
def encodeNamespacePrefix (ns : String) : List UInt8 :=
  let bytes := ns.toUTF8.data.toList
  if ns = "default" then [] else namespaceKeyMagic ++ toBe 2 bytes.length ++ bytes

def nodeKey (ns : String) (qid : NexoraId) : List UInt8 :=
  encodeNamespacePrefix ns ++ (toBe 2 qid.bytes.length ++ qid.bytes)

def encodePrefixKey (ns : String) (qid : NexoraId) : Except PersistenceError (List UInt8) :=
  (checkKey qid).map fun _ => nodeKey ns qid

def encodeNodeTimeKey (ns : String) (qid : NexoraId) (time : EventTime) :
    Except PersistenceError (List UInt8) :=
  (checkKey qid).map fun _ => nodeKey ns qid ++ toBe 8 time.val

def encodeJournalKey (ns : String) (qid : NexoraId) (time : EventTime) (ordinal : Nat) :
    Except PersistenceError (List UInt8) :=
  (encodeNodeTimeKey ns qid time).map fun key => key ++ toBe 4 ordinal

def decodeEventTime (ns : String) (key : List UInt8) : Option EventTime :=
  let ahead := encodeNamespacePrefix ns
  if !ahead.isPrefixOf key then none
  else if key.length < ahead.length + 2 then none
  else
    let offset := ahead.length + 2 + ofBe ((key.drop ahead.length).take 2)
    if key.length < offset + 8 then none
    else some (Fin.ofNat (2 ^ 64) (ofBe ((key.drop offset).take 8)))

/-! ### The persistor -/

structure RocksDbPersistor where
  ns : String
  nodeEvents : Table (List UInt8) (List UInt8)
  snapshots : Table (List UInt8) (List UInt8)

namespace RocksDbPersistor

def openWithNamespace (ns : String) : RocksDbPersistor := ⟨ns, Table.empty, Table.empty⟩

def journalRow (S : Serde) (ns : String) (qid : NexoraId)
    (entry : TimedEvent NodeChangeEvent × Nat) :
    Except PersistenceError (List UInt8 × List UInt8) :=
  if 2 ^ 32 ≤ entry.2 then .error (.backend "too many events in one persistence batch")
  else (encodeJournalKey ns qid entry.1.time entry.2).map fun key => (key, encodeNodeEventJson S entry.1)

/-- The rows of a batch are written together, or none of them. -/
def persistNodeChangeEvents (S : Serde) (p : RocksDbPersistor) (qid : NexoraId)
    (events : NodeEvents) :
    Except PersistenceError RocksDbPersistor :=
  (events.zipIdx.mapM (journalRow S p.ns qid)).map fun batch => { p with nodeEvents := p.nodeEvents.putAll batch }

def decodeValue (S : Serde) (value : List UInt8) :
    Except PersistenceError (TimedEvent NodeChangeEvent) :=
  match decodeNodeEventJson S value with
  | some event => .ok event
  | none => .error (.serialization ("failed to decode node event: Deserialization error: " ++ S.jsonError value))

/-- `seek`, then `next` until a key of another node or a time behind `stop`. -/
def scan (p : RocksDbPersistor) (startKey ahead : List UInt8) (stop : Option EventTime) :
    List (List UInt8 × List UInt8) :=
  (p.nodeEvents.seek startKey).takeWhile fun row =>
    ahead.isPrefixOf row.1 && stop.all fun t => (decodeEventTime p.ns row.1).all fun time => time ≤ t

def getNodeChangeEvents (S : Serde) (p : RocksDbPersistor) (qid : NexoraId)
    (start stop : Option EventTime) :
    Except PersistenceError NodeEvents := do
  let ahead ← encodePrefixKey p.ns qid
  let startKey ← match start with
    | some t => encodeJournalKey p.ns qid t 0
    | none => .ok ahead
  (p.scan startKey ahead stop).mapM fun row => decodeValue S row.2

end RocksDbPersistor

/-! ### The order of keys -/

def journalKey (ns : String) (qid : NexoraId) (place : EventTime ×ₗ Nat) : List UInt8 :=
  nodeKey ns qid ++ (toBe 8 (ofLex place).1.val ++ toBe 4 (ofLex place).2)

def snapshotKey (ns : String) (qid : NexoraId) (time : EventTime) : List UInt8 :=
  nodeKey ns qid ++ toBe 8 time.val

/-- The places that a journal key has room for. -/
def journalPlaces : Set (EventTime ×ₗ Nat) := {place | (ofLex place).2 < 2 ^ 32}

theorem encodeJournalKey_eq (ns : String) (qid : NexoraId) (time : EventTime) (ordinal : Nat) :
    encodeJournalKey ns qid time ordinal =
      (checkKey qid).map fun _ => journalKey ns qid (toLex (time, ordinal)) := by
  simp only [encodeJournalKey, encodeNodeTimeKey, journalKey, ofLex_toLex]
  cases checkKey qid with
  | error e => rfl
  | ok u => simp only [Except.map, append_assoc]

theorem nodeKey_isPrefix_iff {ns : String} {qid other : NexoraId} (hqid : qid.bytes.length ≤ 65535)
    (hother : other.bytes.length ≤ 65535) (rest : List UInt8) :
    nodeKey ns qid <+: nodeKey ns other ++ rest ↔ qid = other := by
  constructor
  · rintro ⟨more, hmore⟩
    simp only [nodeKey, append_assoc, append_cancel_left_eq] at hmore
    obtain ⟨hlength, hbytes⟩ := append_inj hmore (by simp)
    have hlength := toBe_injOn (by omega) (by omega) hlength
    obtain ⟨hbytes, -⟩ := append_inj hbytes hlength
    cases qid
    cases other
    exact congrArg _ hbytes
  · rintro rfl
    exact prefix_append _ _

theorem toBe_time_lt_iff (s t : EventTime) : toBe 8 s.val < toBe 8 t.val ↔ s < t :=
  toBe_lt_toBe_iff s.isLt t.isLt

theorem journalKey_strictMonoOn (ns : String) (qid : NexoraId) :
    StrictMonoOn (journalKey ns qid) journalPlaces := by
  intro a ha b hb hab
  have htime : toBe 8 (ofLex a).1.val = toBe 8 (ofLex b).1.val ↔ (ofLex a).1 = (ofLex b).1 :=
    ⟨fun h => Fin.ext (toBe_injOn (ofLex a).1.isLt (ofLex b).1.isLt h), fun h => h ▸ rfl⟩
  rw [journalKey, journalKey, append_lt_append_iff rfl, append_lt_append_iff (by simp), toBe_time_lt_iff, htime,
    toBe_lt_toBe_iff ha hb]
  exact Or.inr ⟨rfl, (Prod.Lex.lt_iff).mp hab⟩

theorem decodeEventTime_nodeKey {qid : NexoraId} (hqid : qid.bytes.length ≤ 65535) (ns : String)
    (time : EventTime) (rest : List UInt8) :
    decodeEventTime ns (nodeKey ns qid ++ (toBe 8 time.val ++ rest)) = some time := by
  have hlength : ofBe (toBe 2 qid.bytes.length) = qid.bytes.length := by
    rw [ofBe_toBe]
    exact Nat.mod_eq_of_lt (by omega)
  have htime : Fin.ofNat (2 ^ 64) (ofBe (toBe 8 time.val)) = time := by
    rw [ofBe_toBe]
    apply Fin.ext
    have := time.isLt
    simp only [Fin.val_ofNat]
    omega
  have hbegins : (encodeNamespacePrefix ns).isPrefixOf (nodeKey ns qid ++ (toBe 8 time.val ++ rest)) = true := by
    rw [List.isPrefixOf_iff_prefix, nodeKey, append_assoc]
    exact prefix_append _ _
  have hfirst : ((nodeKey ns qid ++ (toBe 8 time.val ++ rest)).drop (encodeNamespacePrefix ns).length).take 2 =
      toBe 2 qid.bytes.length := by
    rw [nodeKey, append_assoc, drop_left, append_assoc]
    exact take_left' (length_toBe _ _)
  have hsecond : ((nodeKey ns qid ++ (toBe 8 time.val ++ rest)).drop
      ((encodeNamespacePrefix ns).length + 2 + qid.bytes.length)).take 8 = toBe 8 time.val := by
    rw [drop_left' (by simp [nodeKey]; omega)]
    exact take_left' (length_toBe _ _)
  have htotal : (nodeKey ns qid ++ (toBe 8 time.val ++ rest)).length =
      (encodeNamespacePrefix ns).length + 2 + qid.bytes.length + 8 + rest.length := by
    simp only [nodeKey, length_append, length_toBe]
    omega
  simp only [decodeEventTime, hbegins, hfirst, hlength, hsecond, htime, htotal]
  rw [if_neg (by simp), if_neg (by omega), if_neg (by omega)]

/-! ### One map and the stores of all nodes -/

namespace RocksDbPersistor

structure Refines (p : RocksDbPersistor) (nodes : NexoraId → RocksDbStore) : Prop where
  nodeEvents : ∀ qid, qid.bytes.length ≤ 65535 →
    (p.nodeEvents.rows.filter fun row => (nodeKey p.ns qid).isPrefixOf row.1) =
      (nodes qid).nodeEvents.rows.map fun row => (journalKey p.ns qid row.1, row.2)
  places : ∀ qid, ∀ row ∈ (nodes qid).nodeEvents.rows, row.1 ∈ journalPlaces
  snapshots : ∀ qid, qid.bytes.length ≤ 65535 →
    (p.snapshots.rows.filter fun row => (nodeKey p.ns qid).isPrefixOf row.1) =
      (nodes qid).snapshots.rows.map fun row => (snapshotKey p.ns qid row.1, row.2)

theorem refines_openWithNamespace (ns : String) :
    (openWithNamespace ns).Refines fun _ => ⟨Table.empty, Table.empty⟩ :=
  ⟨fun _ _ => rfl, fun _ _ hrow => absurd hrow not_mem_nil, fun _ _ => rfl⟩

variable {S : Serde} {p p' : RocksDbPersistor} {nodes : NexoraId → RocksDbStore} {qid : NexoraId}

theorem filter_put {t : Table (List UInt8) (List UInt8)} {ns : String} {other : NexoraId}
    (hqid : qid.bytes.length ≤ 65535) (hother : other.bytes.length ≤ 65535)
    (rest value : List UInt8) :
    ((t.put (nodeKey ns qid ++ rest) value).rows.filter fun row => (nodeKey ns other).isPrefixOf row.1) =
      if other = qid then
        putRow (nodeKey ns qid ++ rest) value (t.rows.filter fun row => (nodeKey ns other).isPrefixOf row.1)
      else t.rows.filter fun row => (nodeKey ns other).isPrefixOf row.1 := by
  have hkey : (nodeKey ns other).isPrefixOf (nodeKey ns qid ++ rest) = true ↔ other = qid := by
    simp [nodeKey_isPrefix_iff hother hqid]
  rw [Table.put, filter_putRow _ _ t.sorted]
  simp [hkey]

theorem Refines.putEvent (h : p.Refines nodes) (hqid : qid.bytes.length ≤ 65535)
    {place : EventTime ×ₗ Nat} (hplace : place ∈ journalPlaces) (value : List UInt8) :
    Refines { p with nodeEvents := p.nodeEvents.put (journalKey p.ns qid place) value }
      (update nodes qid { nodes qid with nodeEvents := (nodes qid).nodeEvents.put place value }) where
  nodeEvents other hother := by
    rw [journalKey, filter_put hqid hother, h.nodeEvents other hother]
    split
    · next heq =>
      subst heq
      rw [update_self]
      exact (map_putRow (journalKey_strictMonoOn p.ns other) hplace value (h.places other)).symm
    · next hne => rw [update_of_ne hne]
  places other row hrow := by
    by_cases hother : other = qid
    · subst hother
      simp only [update_self] at hrow
      rcases mem_of_mem_putRow hrow with rfl | hrow
      · exact hplace
      · exact h.places other row hrow
    · rw [update_of_ne hother] at hrow
      exact h.places other row hrow
  snapshots other hother := by
    rw [h.snapshots other hother]
    by_cases heq : other = qid
    · subst heq
      simp
    · rw [update_of_ne heq]

/-! ### Writing -/

def encodeRow (ns : String) (qid : NexoraId) (row : (EventTime ×ₗ Nat) × List UInt8) :
    List UInt8 × List UInt8 :=
  (journalKey ns qid row.1, row.2)

theorem journalRow_eq (S : Serde) (ns : String) (qid : NexoraId)
    (entry : TimedEvent NodeChangeEvent × Nat) :
    journalRow S ns qid entry = (RocksDbStore.journalRow S qid entry).map (encodeRow ns qid) := by
  unfold journalRow RocksDbStore.journalRow
  split
  · rfl
  · rw [encodeJournalKey_eq]
    cases checkKey qid <;> rfl

theorem mapM_journalRow_eq (S : Serde) (ns : String) (qid : NexoraId)
    (entries : List (TimedEvent NodeChangeEvent × Nat)) :
    entries.mapM (journalRow S ns qid) =
      (entries.mapM (RocksDbStore.journalRow S qid)).map (List.map (encodeRow ns qid)) := by
  induction entries with
  | nil => rfl
  | cons entry entries ih =>
    rw [mapM_cons, mapM_cons, ih, journalRow_eq]
    cases RocksDbStore.journalRow S qid entry with
    | error e => rfl
    | ok row => cases entries.mapM (RocksDbStore.journalRow S qid) <;> rfl

variable {batch : List ((EventTime ×ₗ Nat) × List UInt8)} {events : NodeEvents}

theorem Refines.putAll (h : p.Refines nodes) (hqid : qid.bytes.length ≤ 65535)
    (hbatch : ∀ row ∈ batch, row.1 ∈ journalPlaces) :
    Refines { p with nodeEvents := p.nodeEvents.putAll (batch.map (encodeRow p.ns qid)) }
      (update nodes qid { nodes qid with nodeEvents := (nodes qid).nodeEvents.putAll batch }) := by
  induction batch generalizing p nodes with
  | nil =>
    show p.Refines (update nodes qid (nodes qid))
    rw [update_eq_self]
    exact h
  | cons row batch ih =>
    obtain ⟨hrow, hbatch⟩ := forall_mem_cons.mp hbatch
    have hrest := ih (h.putEvent hqid hrow row.2) hbatch
    rw [update_self, update_idem] at hrest
    exact hrest

theorem place_of_journalRow {entry : TimedEvent NodeChangeEvent × Nat}
    {row : (EventTime ×ₗ Nat) × List UInt8} (h : RocksDbStore.journalRow S qid entry = .ok row) :
    qid.bytes.length ≤ 65535 ∧ row.1 ∈ journalPlaces := by
  have hrow := journalRow_eq_ok h
  unfold RocksDbStore.journalRow at h
  split at h
  · cases h
  · next hplace =>
    refine ⟨(map_checkKey_eq_ok h).1, ?_⟩
    rw [hrow]
    exact not_le.mp hplace

theorem places_of_mapM_journalRow {entries : List (TimedEvent NodeChangeEvent × Nat)}
    (h : entries.mapM (RocksDbStore.journalRow S qid) = .ok batch) :
    ∀ row ∈ batch, qid.bytes.length ≤ 65535 ∧ row.1 ∈ journalPlaces := by
  have hrows := (mapM_eq_ok_iff.mp h).imp fun _ _ hrow => And.intro (place_of_journalRow hrow) trivial
  exact ((forall₂_and_left batch entries).mp hrows.flip).1

theorem Refines.persistNodeChangeEvents (h : p.Refines nodes)
    (hpersist : p.persistNodeChangeEvents S qid events = .ok p') :
    ∃ r, (nodes qid).persistNodeChangeEvents S qid events = .ok r ∧ p'.Refines (update nodes qid r) := by
  rw [RocksDbPersistor.persistNodeChangeEvents, mapM_journalRow_eq] at hpersist
  rw [RocksDbStore.persistNodeChangeEvents]
  cases hbatch : events.zipIdx.mapM (RocksDbStore.journalRow S qid) with
  | error e =>
    rw [hbatch] at hpersist
    cases hpersist
  | ok batch =>
    rw [hbatch] at hpersist
    cases hpersist
    refine ⟨_, rfl, ?_⟩
    have hplaces := places_of_mapM_journalRow hbatch
    cases batch with
    | nil =>
      show p.Refines (update nodes qid (nodes qid))
      rw [update_eq_self]
      exact h
    | cons row batch =>
      exact h.putAll (hplaces row mem_cons_self).1 fun other hother => (hplaces other hother).2

theorem persistNodeChangeEvents_eq_error_iff (p : RocksDbPersistor) (r : RocksDbStore)
    {e : PersistenceError} :
    p.persistNodeChangeEvents S qid events = .error e ↔ r.persistNodeChangeEvents S qid events = .error e := by
  rw [RocksDbPersistor.persistNodeChangeEvents, mapM_journalRow_eq, RocksDbStore.persistNodeChangeEvents]
  cases events.zipIdx.mapM (RocksDbStore.journalRow S qid) <;> simp [Except.map]

/-! ### Reading -/

theorem mapM_decodeValue (S : Serde) (ns : String) (qid : NexoraId)
    (rows : List ((EventTime ×ₗ Nat) × List UInt8)) :
    ((rows.map (encodeRow ns qid)).mapM fun row => decodeValue S row.2) = rows.mapM (decodeRow S) := by
  induction rows with
  | nil => rfl
  | cons row rows ih => rw [map_cons, mapM_cons, mapM_cons, ih]; rfl

theorem isPrefixOf_of_le_of_le {ahead start : List UInt8} (hstart : ahead <+: start)
    (k k' : List UInt8) (hk : start ≤ k) (hkk' : k ≤ k') (hk' : ahead.isPrefixOf k' = true) :
    ahead.isPrefixOf k = true := by
  rw [List.isPrefixOf_iff_prefix] at hk' ⊢
  exact isPrefix_of_le_of_le hstart hk' hk hkk'

theorem Refines.scan (h : p.Refines nodes) (hqid : qid.bytes.length ≤ 65535) {startKey : List UInt8}
    (hstart : nodeKey p.ns qid <+: startKey) {fromPlace : EventTime ×ₗ Nat → Bool}
    (hfrom : ∀ place ∈ journalPlaces, startKey ≤ journalKey p.ns qid place ↔ fromPlace place)
    (stop : Option EventTime) :
    p.scan startKey (nodeKey p.ns qid) stop =
      (((nodes qid).nodeEvents.rows.filter fun row => fromPlace row.1).takeWhile
        fun row => stop.all fun t => (ofLex row.1).1 ≤ t).map (encodeRow p.ns qid) := by
  have hsplit : p.scan startKey (nodeKey p.ns qid) stop =
      ((p.nodeEvents.seek startKey).takeWhile fun row => (nodeKey p.ns qid).isPrefixOf row.1).takeWhile
        fun row => stop.all fun t => (decodeEventTime p.ns row.1).all fun time => time ≤ t := by
    rw [takeWhile_takeWhile, RocksDbPersistor.scan]
    congr 1
    funext row
    rw [Bool.and_comm, Bool.decide_and, Bool.decide_eq_true, Bool.decide_eq_true]
  rw [hsplit, p.nodeEvents.takeWhile_seek (isPrefixOf_of_le_of_le hstart), ← filter_filter,
    h.nodeEvents qid hqid, filter_map,
    takeWhile_map]
  refine congrArg (map (encodeRow p.ns qid)) (congrArg₂ takeWhile ?_ (filter_congr fun row hrow => ?_))
  · funext row
    simp [journalKey, decodeEventTime_nodeKey hqid]
  · rw [comp_apply, Bool.eq_iff_iff, decide_eq_true_iff]
    exact hfrom row.1 (h.places qid row hrow)

theorem Refines.getNodeChangeEvents (h : p.Refines nodes) (S : Serde) (qid : NexoraId)
    (start stop : Option EventTime) :
    p.getNodeChangeEvents S qid start stop = (nodes qid).getNodeChangeEvents S qid start stop := by
  by_cases hqid : qid.bytes.length ≤ 65535
  · simp only [RocksDbPersistor.getNodeChangeEvents, RocksDbStore.getNodeChangeEvents, encodePrefixKey,
      checkKey_of_le hqid, encodeJournalKey_eq]
    cases start with
    | none =>
      have hfrom : ∀ place ∈ journalPlaces, nodeKey p.ns qid ≤ journalKey p.ns qid place ↔ true = true :=
        fun place _ => iff_of_true (le_of_isPrefix (prefix_append _ _)) rfl
      have hscan := h.scan hqid (prefix_refl _) hfrom stop
      exact (congrArg _ hscan).trans (mapM_decodeValue S p.ns qid _)
    | some t =>
      have hfrom : ∀ place ∈ journalPlaces, journalKey p.ns qid (toLex (t, 0)) ≤ journalKey p.ns qid place ↔
          decide (toLex (t, 0) ≤ place) = true := by
        intro place hplace
        rw [decide_eq_true_iff]
        exact (journalKey_strictMonoOn p.ns qid).le_iff_le (by simp [journalPlaces]) hplace
      have hscan := h.scan hqid (prefix_append _ _) hfrom stop
      exact (congrArg _ hscan).trans (mapM_decodeValue S p.ns qid _)
  · rw [RocksDbPersistor.getNodeChangeEvents, RocksDbStore.getNodeChangeEvents, encodePrefixKey, RocksDbStore.checkKey,
      if_pos (not_le.mp hqid)]
    rfl

end RocksDbPersistor
end Nexora
