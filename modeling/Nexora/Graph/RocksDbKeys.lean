import Nexora.Graph.RocksDb

/-!
# The keys of several namespaces in one database

A database may be opened under one namespace after another
(`nexora-persistor-rocksdb/src/persistor.rs`). The keys of a namespace begin with three bytes of
their own, those of the default one with the length of the identifier, and the first two of the
three bytes are also a length. So a key may be read in both ways.
-/

namespace Nexora
open Lib List RocksDbStore Table

def namespaceBytes (ns : String) : List UInt8 := ns.toUTF8.data.toList

def decodeQid (ns : String) (key : List UInt8) : Option NexoraId :=
  let ahead := encodeNamespacePrefix ns
  if !ahead.isPrefixOf key then none
  else if key.length < ahead.length + 2 then none
  else
    let qidLen := ofBe ((key.drop ahead.length).take 2)
    let qidStart := ahead.length + 2
    if qidStart + qidLen ≤ key.length then some ⟨(key.drop qidStart).take qidLen⟩ else none

namespace RocksDbPersistor

def reopenWithNamespace (ns : String) (nodeEvents snapshots : Table (List UInt8) (List UInt8)) :
    Except PersistenceError RocksDbPersistor :=
  if 65535 < (namespaceBytes ns).length then .error (.backend "namespace is too long (maximum 65535 bytes)")
  else .ok ⟨ns, nodeEvents, snapshots⟩

def enumerateJournalNodeIds (p : RocksDbPersistor) : List NexoraId :=
  let ahead := encodeNamespacePrefix p.ns
  (((p.nodeEvents.seek ahead).takeWhile fun row => ahead.isPrefixOf row.1).filterMap fun row => decodeQid p.ns row.1).eraseDups

def startKey (ns : String) (qid : NexoraId) : Option EventTime → List UInt8
  | none => nodeKey ns qid
  | some t => journalKey ns qid (toLex (t, 0))

theorem getNodeChangeEvents_eq_scan {qid : NexoraId} (hqid : qid.bytes.length ≤ 65535) (S : Serde)
    (p : RocksDbPersistor) (start stop : Option EventTime) :
    p.getNodeChangeEvents S qid start stop =
      (p.scan (startKey p.ns qid start) (nodeKey p.ns qid) stop).mapM fun row => decodeValue S row.2 := by
  simp only [getNodeChangeEvents, encodePrefixKey, checkKey_of_le hqid, encodeJournalKey_eq]
  cases start <;> rfl

end RocksDbPersistor

/-! ### Where an event is stored -/

/-- What the key of an event is made of, within the lengths that are accepted. -/
@[ext] structure EventAddress where
  ns : String
  qid : NexoraId
  place : EventTime ×ₗ Nat
  ns_le : (namespaceBytes ns).length ≤ 65535
  qid_le : qid.bytes.length ≤ 65535
  place_mem : place ∈ journalPlaces

namespace EventAddress

def tail (a : EventAddress) : List UInt8 := toBe 8 (ofLex a.place).1.val ++ toBe 4 (ofLex a.place).2

def key (a : EventAddress) : List UInt8 := journalKey a.ns a.qid a.place

theorem encodeJournalKey_eq_key (a : EventAddress) :
    encodeJournalKey a.ns a.qid (ofLex a.place).1 (ofLex a.place).2 = .ok a.key := by
  rw [encodeJournalKey_eq, checkKey_of_le a.qid_le]
  rfl

/-- Bytes that begin with the third byte of the magic, a namespace that is not the default one, and
an identifier. -/
def ReadsAsNamespaced (rest : List UInt8) : Prop :=
  ∃ ns : String, ns ≠ "default" ∧ (namespaceBytes ns).length ≤ 65535 ∧
    ∃ more, rest = 0x01 :: (toBe 2 (namespaceBytes ns).length ++ (namespaceBytes ns ++ more)) ∧
      2 + ofBe (more.take 2) ≤ more.length

/-- The key can be read in one way only: one of the default namespace does not have an identifier of
20814 bytes behind whose length comes what follows in the keys of another namespace, and one of
another namespace is too short to hold an identifier of 20814 bytes. -/
def Apart (a : EventAddress) : Prop :=
  if a.ns = "default" then ¬ (a.qid.bytes.length = 20814 ∧ ReadsAsNamespaced (a.qid.bytes ++ a.tail))
  else (namespaceBytes a.ns).length + a.qid.bytes.length < 20797

end EventAddress

/-! ### How a key can be read -/

theorem toBe_magic : toBe 2 20814 = [0x51, 0x4E] := by decide

theorem namespaceBytes_injective {ns other : String}
    (h : namespaceBytes ns = namespaceBytes other) : ns = other :=
  String.toByteArray_inj.mp (ByteArray.ext (Array.toList_inj.mp h))

theorem nodeKey_default (qid : NexoraId) :
    nodeKey "default" qid = toBe 2 qid.bytes.length ++ qid.bytes := by
  simp [nodeKey, encodeNamespacePrefix]

theorem nodeKey_of_ne {ns : String} (hns : ns ≠ "default") (qid : NexoraId) :
    nodeKey ns qid = toBe 2 20814 ++ 0x01 :: (toBe 2 (namespaceBytes ns).length ++
      (namespaceBytes ns ++ (toBe 2 qid.bytes.length ++ qid.bytes))) := by
  rw [nodeKey, encodeNamespacePrefix, if_neg hns, toBe_magic]
  simp [namespaceKeyMagic, namespaceBytes]

namespace EventAddress

theorem key_eq (a : EventAddress) : a.key = nodeKey a.ns a.qid ++ a.tail := rfl

theorem length_tail (a : EventAddress) : a.tail.length = 12 := by
  simp [tail, length_toBe]

variable {a : EventAddress}

theorem length_key_of_ne (hns : a.ns ≠ "default") :
    a.key.length = 19 + (namespaceBytes a.ns).length + a.qid.bytes.length := by
  rw [key_eq, nodeKey_of_ne hns]
  simp only [length_append, length_cons, length_toBe, length_tail]
  omega

variable {qid : NexoraId}

theorem le_length_of_default_isPrefix (hns : a.ns ≠ "default") (hqid : qid.bytes.length ≤ 65535)
    (h : nodeKey "default" qid <+: a.key) : 20816 ≤ a.key.length := by
  obtain ⟨more, hmore⟩ := h
  have hlength := congrArg length hmore
  rw [key_eq, nodeKey_default, nodeKey_of_ne hns, append_assoc, append_assoc] at hmore
  have hfirst := (append_inj hmore (by rw [length_toBe, length_toBe])).1
  have hsize := toBe_injOn (by omega) (by omega) hfirst
  rw [nodeKey_default, length_append, length_append, length_toBe, hsize] at hlength
  omega

theorem readsAsNamespaced_of_isPrefix (hdefault : a.ns = "default") {ns : String}
    (hns : ns ≠ "default") (hlength : (namespaceBytes ns).length ≤ 65535)
    (hqid : qid.bytes.length ≤ 65535) (h : nodeKey ns qid <+: a.key) :
    a.qid.bytes.length = 20814 ∧ ReadsAsNamespaced (a.qid.bytes ++ a.tail) := by
  obtain ⟨more, hmore⟩ := h
  rw [key_eq, hdefault, nodeKey_default, nodeKey_of_ne hns, append_assoc, append_assoc] at hmore
  obtain ⟨hfirst, hrest⟩ := append_inj hmore (by rw [length_toBe, length_toBe])
  have hqid' := a.qid_le
  refine ⟨(toBe_injOn (by omega) (by omega) hfirst).symm, ns, hns, hlength, toBe 2 qid.bytes.length ++ (qid.bytes ++ more), ?_, ?_⟩
  · rw [← hrest]
    simp [append_assoc]
  · rw [take_left' (length_toBe _ _), ofBe_toBe, Nat.mod_eq_of_lt (by omega), length_append, length_append,
      length_toBe]
    omega

/-- **Reading a key.** A key that is apart begins with those of its own node and of no other. -/
theorem isPrefix_key_iff (ha : a.Apart) {ns : String} (hns : (namespaceBytes ns).length ≤ 65535)
    (hqid : qid.bytes.length ≤ 65535) : nodeKey ns qid <+: a.key ↔ a.ns = ns ∧ a.qid = qid := by
  constructor
  · intro h
    have hsame : a.ns = ns := by
      by_cases hdefault : a.ns = "default"
      · rw [Apart, if_pos hdefault] at ha
        by_contra hne
        exact ha (readsAsNamespaced_of_isPrefix hdefault (fun heq => hne (hdefault.trans heq.symm)) hns hqid h)
      · rw [Apart, if_neg hdefault] at ha
        by_cases hother : ns = "default"
        · rw [hother] at h
          have := le_length_of_default_isPrefix hdefault hqid h
          have := length_key_of_ne hdefault
          omega
        · obtain ⟨more, hmore⟩ := h
          rw [key_eq, nodeKey_of_ne hdefault, nodeKey_of_ne hother] at hmore
          simp only [append_assoc, cons_append, append_cancel_left_eq, cons.injEq, true_and] at hmore
          obtain ⟨hfirst, hrest⟩ := append_inj hmore (by rw [length_toBe, length_toBe])
          have := a.ns_le
          have hlength := toBe_injOn (by omega) (by omega) hfirst
          exact namespaceBytes_injective (append_inj hrest hlength).1.symm
    subst hsame
    exact ⟨rfl, ((nodeKey_isPrefix_iff hqid a.qid_le a.tail).mp h).symm⟩
  · rintro ⟨rfl, rfl⟩
    exact prefix_append _ _

theorem exists_isPrefix_of_not_apart (ha : ¬ a.Apart) :
    ∃ ns qid, (namespaceBytes ns).length ≤ 65535 ∧ qid.bytes.length ≤ 65535 ∧ ns ≠ a.ns ∧ nodeKey ns qid <+: a.key := by
  by_cases hdefault : a.ns = "default"
  · rw [Apart, if_pos hdefault, not_not] at ha
    obtain ⟨hlength, ns, hns, hle, more, hrest, hmore⟩ := ha
    have htwo : (more.take 2).length = 2 := length_take_of_le (by omega)
    have hsize := ofBe_lt (more.take 2)
    rw [htwo] at hsize
    have hqid : ((more.drop 2).take (ofBe (more.take 2))).length = ofBe (more.take 2) := by
      rw [length_take, length_drop]
      omega
    refine ⟨ns, ⟨(more.drop 2).take (ofBe (more.take 2))⟩, hle, ?_, fun heq => hns (heq.trans hdefault), ?_⟩
    · rw [hqid]
      omega
    · refine ⟨(more.drop 2).drop (ofBe (more.take 2)), ?_⟩
      rw [key_eq, hdefault, nodeKey_default, nodeKey_of_ne hns, hlength, append_assoc (toBe 2 20814) a.qid.bytes, hrest]
      simp [hqid, toBe_ofBe htwo, append_assoc, take_append_drop]
  · rw [Apart, if_neg hdefault, not_lt] at ha
    have hkey := length_key_of_ne hdefault
    have hqid : ((a.key.drop 2).take 20814).length = 20814 := by
      rw [length_take, length_drop]
      omega
    refine ⟨"default", ⟨(a.key.drop 2).take 20814⟩, by decide, ?_, Ne.symm hdefault, (a.key.drop 2).drop 20814, ?_⟩
    · rw [hqid]
      decide
    · have hfirst : a.key.take 2 = toBe 2 20814 := by
        rw [key_eq, nodeKey_of_ne hdefault, append_assoc]
        exact take_left' (length_toBe _ _)
      rw [nodeKey_default, hqid, ← hfirst, append_assoc, take_append_drop, take_append_drop]

end EventAddress

/-! ### A database of several namespaces -/

abbrev StoredEvent := EventAddress × List UInt8

namespace RocksDbPersistor

def writeEvent (t : Table (List UInt8) (List UInt8)) (e : StoredEvent) :
    Table (List UInt8) (List UInt8) := t.put e.1.key e.2

def database (ns : String) (events : List StoredEvent) : RocksDbPersistor :=
  ⟨ns, events.foldl writeEvent .empty, .empty⟩

def storeEvent (ns : String) (nodes : NexoraId → RocksDbStore) (e : StoredEvent) :
    NexoraId → RocksDbStore :=
  if e.1.ns = ns then
    Function.update nodes e.1.qid { nodes e.1.qid with nodeEvents := (nodes e.1.qid).nodeEvents.put e.1.place e.2 }
  else nodes

def stores (ns : String) (events : List StoredEvent) : NexoraId → RocksDbStore :=
  events.foldl (storeEvent ns) fun _ => ⟨.empty, .empty⟩

/-- What is asked of the keys: no two events share one, those of a node are in the order of times
and places, a scan for a node reads its events and no others, and the identifiers enumerated for a
namespace are stored there. -/
structure KeepsApart (events : List StoredEvent) : Prop where
  injective : ∀ e ∈ events, ∀ e' ∈ events, e.1.key = e'.1.key → e.1 = e'.1
  ordered : ∀ e ∈ events, ∀ e' ∈ events, e.1.ns = e'.1.ns → e.1.qid = e'.1.qid →
    (e.1.key < e'.1.key ↔ e.1.place < e'.1.place)
  scan : ∀ ns qid, (namespaceBytes ns).length ≤ 65535 → qid.bytes.length ≤ 65535 → ∀ start stop,
    (database ns events).scan (startKey ns qid start) (nodeKey ns qid) stop =
      ((stores ns events qid).nodeEvents.rows.filter fun row =>
        start.all (fun t => t ≤ (ofLex row.1).1) && stop.all fun t => (ofLex row.1).1 ≤ t).map (encodeRow ns qid)
  enumerate : ∀ ns, (namespaceBytes ns).length ≤ 65535 → ∀ qid ∈ (database ns events).enumerateJournalNodeIds,
    ∃ e ∈ events, e.1.ns = ns ∧ e.1.qid = qid

/-! ### Writing -/

variable {nodeEvents snapshots : Table (List UInt8) (List UInt8)}

variable {p : RocksDbPersistor}

theorem reopenWithNamespace_eq_ok {ns : String}
    (h : reopenWithNamespace ns nodeEvents snapshots = .ok p) :
    p = ⟨ns, nodeEvents, snapshots⟩ ∧ (namespaceBytes ns).length ≤ 65535 := by
  unfold reopenWithNamespace at h
  split at h
  · cases h
  · next hle => exact ⟨(Except.ok.inj h).symm, not_lt.mp hle⟩

variable {qid : NexoraId}

theorem exists_storedEvents_of_persist {S : Serde} {ns : String}
    {p p' : RocksDbPersistor} (hopen : reopenWithNamespace ns nodeEvents snapshots = .ok p)
    {events : NodeEvents} (h : p.persistNodeChangeEvents S qid events = .ok p') :
    ∃ stored : List StoredEvent, (∀ e ∈ stored, e.1.ns = ns ∧ e.1.qid = qid) ∧
      p'.nodeEvents = stored.foldl writeEvent nodeEvents := by
  obtain ⟨rfl, hns⟩ := reopenWithNamespace_eq_ok hopen
  rw [persistNodeChangeEvents, mapM_journalRow_eq] at h
  cases hbatch : events.zipIdx.mapM (RocksDbStore.journalRow S qid) with
  | error e =>
    rw [hbatch] at h
    cases h
  | ok batch =>
    rw [hbatch] at h
    cases h
    have hplaces := places_of_mapM_journalRow hbatch
    refine ⟨batch.attach.map fun row => (⟨ns, qid, row.1.1, hns, (hplaces row.1 row.2).1, (hplaces row.1 row.2).2⟩, row.1.2),
      fun e he => ?_, ?_⟩
    · obtain ⟨row, -, rfl⟩ := mem_map.mp he
      exact ⟨rfl, rfl⟩
    · rw [foldl_map]
      show (nodeEvents.putAll (batch.map (encodeRow ns qid))) = _
      rw [putAll, foldl_map, ← foldl_attach]
      rfl

variable {ns : String} {p : RocksDbPersistor} {nodes : NexoraId → RocksDbStore}
    {events : List StoredEvent}

theorem Refines.writeEvent (hp : p.Refines nodes) (hns : (namespaceBytes p.ns).length ≤ 65535)
    {e : StoredEvent} (he : e.1.Apart) :
    Refines { p with nodeEvents := writeEvent p.nodeEvents e } (storeEvent p.ns nodes e) := by
  rw [storeEvent]
  split
  · next hsame =>
    have hput := hp.putEvent e.1.qid_le e.1.place_mem e.2
    rwa [RocksDbPersistor.writeEvent, EventAddress.key, hsame]
  · next hother =>
    refine ⟨fun qid hqid => ?_, hp.places, hp.snapshots⟩
    have hkey : (nodeKey p.ns qid).isPrefixOf e.1.key = false := by
      rw [Bool.eq_false_iff, ne_eq, isPrefixOf_iff_prefix, EventAddress.isPrefix_key_iff he hns hqid]
      exact fun h => hother h.1
    rw [← hp.nodeEvents qid hqid, RocksDbPersistor.writeEvent, put, filter_putRow _ _ p.nodeEvents.sorted, hkey]
    rfl

/-- **Each namespace by itself.** When all keys are apart, the database holds of each node of a
namespace its own events. -/
theorem refines_database (hns : (namespaceBytes ns).length ≤ 65535)
    (hevents : ∀ e ∈ events, e.1.Apart) :
    (database ns events).Refines (stores ns events) := by
  induction events using reverseRecOn with
  | nil => exact refines_openWithNamespace ns
  | append_singleton events e ih =>
    have hbefore := ih fun e' he' => hevents e' (mem_append_left _ he')
    have hafter := hbefore.writeEvent hns (hevents e (mem_append_right _ (mem_singleton_self e)))
    rw [database, stores, foldl_append, foldl_append]
    exact hafter

theorem mem_of_mem_stores {row : (EventTime ×ₗ Nat) × List UInt8}
    (h : row ∈ (stores ns events qid).nodeEvents.rows) :
    ∃ e ∈ events, e.1.ns = ns ∧ e.1.qid = qid ∧ e.1.place = row.1 := by
  induction events using reverseRecOn with
  | nil => exact absurd h not_mem_nil
  | append_singleton events e ih =>
    have hbefore : row ∈ (stores ns events qid).nodeEvents.rows →
        ∃ e' ∈ events ++ [e], e'.1.ns = ns ∧ e'.1.qid = qid ∧ e'.1.place = row.1 := by
      intro hrow
      obtain ⟨e', he', hsame⟩ := ih hrow
      exact ⟨e', mem_append_left _ he', hsame⟩
    rw [stores, foldl_append] at h
    change row ∈ (storeEvent ns (stores ns events) e qid).nodeEvents.rows at h
    by_cases hns : e.1.ns = ns
    · rw [storeEvent, if_pos hns] at h
      by_cases hqid : qid = e.1.qid
      · subst hqid
        rw [Function.update_self] at h
        rcases mem_of_mem_putRow h with rfl | hrow
        · exact ⟨e, mem_append_right _ (mem_singleton_self e), hns, rfl, rfl⟩
        · exact hbefore hrow
      · rw [Function.update_of_ne hqid] at h
        exact hbefore h
    · rw [storeEvent, if_neg hns] at h
      exact hbefore h

theorem exists_mem_database_iff {k : List UInt8} :
    (∃ value, (k, value) ∈ (database ns events).nodeEvents.rows) ↔ ∃ e ∈ events, e.1.key = k := by
  simp only [← find?_eq_some_iff, ← Option.isSome_iff_exists]
  induction events using reverseRecOn with
  | nil => exact iff_of_false Bool.false_ne_true fun ⟨e, he, _⟩ => not_mem_nil he
  | append_singleton events e ih =>
    rw [database, foldl_append]
    change ((put (database ns events).nodeEvents e.1.key e.2).find? k).isSome = true ↔ _
    simp only [mem_append, mem_singleton, or_and_right, exists_or, exists_eq_left]
    rw [find?_put]
    by_cases hk : k = e.1.key
    · exact iff_of_true (by rw [if_pos hk]; rfl) (.inr hk.symm)
    · rw [if_neg hk, ih, or_iff_left (Ne.symm hk)]

/-! ### Reading -/

theorem mem_scan_none_iff {row : List UInt8 × List UInt8} :
    row ∈ p.scan (nodeKey p.ns qid) (nodeKey p.ns qid) none ↔ row ∈ p.nodeEvents.rows ∧ nodeKey p.ns qid <+: row.1 := by
  simp only [scan, Option.all_none, Bool.and_true]
  rw [p.nodeEvents.takeWhile_seek (isPrefixOf_of_le_of_le (prefix_refl _)), mem_filter, Bool.and_eq_true,
    decide_eq_true_iff, isPrefixOf_iff_prefix]
  exact and_congr_right fun _ => and_iff_right_of_imp le_of_isPrefix

theorem mem_enumerateJournalNodeIds (h : qid ∈ p.enumerateJournalNodeIds) :
    ∃ row ∈ p.nodeEvents.rows, decodeQid p.ns row.1 = some qid := by
  obtain ⟨row, hrow, hqid⟩ := mem_filterMap.mp (mem_eraseDups.mp h)
  exact ⟨row, (dropWhile_sublist _).mem ((takeWhile_sublist _).mem hrow), hqid⟩

end RocksDbPersistor

theorem isPrefix_of_decodeQid {ns : String} {key : List UInt8} {qid : NexoraId}
    (h : decodeQid ns key = some qid) :
    qid.bytes.length ≤ 65535 ∧ nodeKey ns qid <+: key := by
  simp only [decodeQid] at h
  split at h
  · cases h
  · next hahead =>
    split at h
    · cases h
    · next hlength =>
      split at h
      · next hfits =>
        obtain ⟨rest, rfl⟩ : encodeNamespacePrefix ns <+: key := by simpa using hahead
        rw [drop_left] at h hfits
        have htwo : (rest.take 2).length = 2 := by
          rw [length_append] at hlength
          rw [length_take]
          omega
        have hsize := ofBe_lt (rest.take 2)
        rw [htwo] at hsize
        rw [← drop_drop, drop_left] at h
        have hqid : qid.bytes.length = ofBe (rest.take 2) := by
          rw [← Option.some.inj h, length_take, length_drop]
          rw [length_append] at hfits
          omega
        refine ⟨by omega, (rest.drop 2).drop (ofBe (rest.take 2)), ?_⟩
        rw [nodeKey, hqid, toBe_ofBe htwo, ← Option.some.inj h]
        simp
      · cases h

namespace RocksDbPersistor
variable {p : RocksDbPersistor} {nodes : NexoraId → RocksDbStore}

theorem startKey_le_journalKey_iff (ns : String) (qid : NexoraId) (start : Option EventTime)
    {place : EventTime ×ₗ Nat} (hplace : place ∈ journalPlaces) :
    startKey ns qid start ≤ journalKey ns qid place ↔ start.all (fun t => t ≤ (ofLex place).1) = true := by
  cases start with
  | none => exact iff_of_true (le_of_isPrefix (prefix_append _ _)) rfl
  | some t =>
    have hzero : toLex (t, 0) ∈ journalPlaces := Nat.two_pow_pos 32
    rw [startKey, (journalKey_strictMonoOn ns qid).le_iff_le hzero hplace, Prod.Lex.le_iff, Option.all_some,
      decide_eq_true_iff]
    exact (or_congr_right (and_iff_left (Nat.zero_le _))).trans le_iff_lt_or_eq.symm

theorem Refines.scan_times (h : p.Refines nodes) {qid : NexoraId} (hqid : qid.bytes.length ≤ 65535)
    (start stop : Option EventTime) :
    p.scan (startKey p.ns qid start) (nodeKey p.ns qid) stop =
      ((nodes qid).nodeEvents.rows.filter fun row =>
        start.all (fun t => t ≤ (ofLex row.1).1) && stop.all fun t => (ofLex row.1).1 ≤ t).map (encodeRow p.ns qid) := by
  have hstart : nodeKey p.ns qid <+: startKey p.ns qid start := by
    cases start
    · exact prefix_refl _
    · exact prefix_append _ _
  have hsorted : ((nodes qid).nodeEvents.rows.filter fun row => start.all fun t => t ≤ (ofLex row.1).1).Pairwise
      fun a b => (stop.all fun t => (ofLex b.1).1 ≤ t) = true → (stop.all fun t => (ofLex a.1).1 ≤ t) = true := by
    refine ((nodes qid).nodeEvents.sorted.filter _).imp fun {a b} hab hb => ?_
    cases stop with
    | none => rfl
    | some t =>
      have htimes : (ofLex a.1).1 ≤ (ofLex b.1).1 := Prod.Lex.monotone_fst a.1 b.1 hab.le
      exact decide_eq_true (htimes.trans (of_decide_eq_true hb))
  rw [h.scan hqid hstart (fun place hplace => startKey_le_journalKey_iff p.ns qid start hplace) stop,
    takeWhile_eq_filter hsorted, filter_filter]
  simp [Bool.and_comm]

theorem eq_of_key_eq {a b : EventAddress} (hb : b.Apart) (h : a.key = b.key) : a = b := by
  have hbegins : nodeKey a.ns a.qid <+: b.key := h ▸ prefix_append _ _
  obtain ⟨hns, hqid⟩ := (EventAddress.isPrefix_key_iff hb a.ns_le a.qid_le).mp hbegins
  refine EventAddress.ext hns.symm hqid.symm ?_
  rw [EventAddress.key, EventAddress.key, hns, hqid] at h
  exact (journalKey_strictMonoOn a.ns a.qid).injOn a.place_mem b.place_mem h

/-- **The keys of a database.** They do what is asked of them exactly when each can be read in one
way only. -/
theorem keepsApart_iff (events : List StoredEvent) :
    KeepsApart events ↔ ∀ e ∈ events, e.1.Apart := by
  constructor
  · intro h e he
    by_contra hnot
    obtain ⟨ns, qid, hns, hqid, hne, hbegins⟩ := EventAddress.exists_isPrefix_of_not_apart hnot
    -- The scan for the other node reads the event, which then has to be one of that node.
    obtain ⟨value, hrow⟩ :=
      exists_mem_database_iff.mpr ⟨e, he, rfl⟩
    have hscan : (e.1.key, value) ∈ (database ns events).scan (startKey ns qid none) (nodeKey ns qid) none :=
      mem_scan_none_iff.mpr ⟨hrow, hbegins⟩
    rw [h.scan ns qid hns hqid none none] at hscan
    obtain ⟨row, hrow', hkey⟩ := mem_map.mp hscan
    obtain ⟨e', he', rfl, rfl, hplace⟩ := mem_of_mem_stores (mem_filter.mp hrow').1
    have hsame : e'.1.key = e.1.key := by
      rw [EventAddress.key, hplace]
      exact congrArg Prod.fst hkey
    exact hne (congrArg EventAddress.ns (h.injective e' he' e he hsame))
  · intro h
    refine ⟨fun e _ e' he' => eq_of_key_eq (h e' he'), fun e _ e' _ hns hqid => ?_, fun ns qid hns hqid => ?_, fun ns hns => ?_⟩
    · rw [EventAddress.key, EventAddress.key, hns, hqid]
      exact (journalKey_strictMonoOn e'.1.ns e'.1.qid).lt_iff_lt e.1.place_mem e'.1.place_mem
    · exact (refines_database hns h).scan_times hqid
    · intro qid hmem
      obtain ⟨row, hrow, hdecode⟩ := mem_enumerateJournalNodeIds hmem
      obtain ⟨hqid, hbegins⟩ := isPrefix_of_decodeQid hdecode
      obtain ⟨e, he, hkey⟩ := exists_mem_database_iff.mp ⟨row.2, hrow⟩
      rw [← hkey] at hbegins
      exact ⟨e, he, (EventAddress.isPrefix_key_iff (h e he) hns hqid).mp hbegins⟩

end RocksDbPersistor

def namespacedEvent : EventAddress where
  ns := "a"
  qid := ⟨replicate 20808 0⟩
  place := toLex (0, 0)
  ns_le := by decide
  qid_le := by rw [length_replicate]; decide
  place_mem := Nat.two_pow_pos 32

/-- An event of the default namespace whose identifier repeats what stands behind the first two
bytes of the other's key. -/
def defaultEvent : EventAddress where
  ns := "default"
  qid := ⟨[0x01, 0x00, 0x01, 0x61, 0x51, 0x48] ++ replicate 20808 0⟩
  place := toLex (0, 0)
  ns_le := by decide
  qid_le := by rw [length_append, length_replicate]; decide
  place_mem := Nat.two_pow_pos 32

theorem key_shared_across_namespaces :
    namespacedEvent.key = defaultEvent.key ∧ namespacedEvent.ns ≠ defaultEvent.ns := by
  have hlength : defaultEvent.qid.bytes.length = 20814 := by
    rw [defaultEvent, length_append, length_replicate]
    rfl
  have hsecond : toBe 2 20808 = [0x51, 0x48] := by decide
  refine ⟨?_, by decide⟩
  rw [EventAddress.key_eq, EventAddress.key_eq, nodeKey_of_ne (by decide)]
  change _ = nodeKey "default" defaultEvent.qid ++ _
  rw [nodeKey_default, hlength]
  simp only [namespacedEvent, length_replicate, hsecond]
  rfl

end Nexora
