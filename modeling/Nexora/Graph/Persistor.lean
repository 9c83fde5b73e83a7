import Nexora.Wal.Codec
import Nexora.Lib.Table
import Mathlib.Data.Prod.Lex

/-!
# Persistence backends

A persistor keeps for each node a journal of events and its snapshots. The in-memory backend
(`persistor.rs`) appends to both; the RocksDB backend keeps rows in key order, so that an equal key
is overwritten. Each is modelled by what it holds of one node.
-/

namespace Nexora
open Lib List

inductive PersistenceError where
  | io (message : String)
  | serialization (message : String)
  | notFound (message : String)
  | conflict (message : String)
  | backend (message : String)
deriving DecidableEq

def PersistenceError.text : PersistenceError → String
  | .io message => "I/O error: " ++ message
  | .serialization message => "serialization error: " ++ message
  | .notFound message => "not found: " ++ message
  | .conflict message => "conflict: " ++ message
  | .backend message => "backend error: " ++ message

/-! ### In memory -/

structure InMemoryStore where
  journal : NodeEvents
  snapshots : List (EventTime × List UInt8)

namespace InMemoryStore

def persistNodeChangeEvents (m : InMemoryStore) (events : NodeEvents) : InMemoryStore :=
  { m with journal := m.journal ++ events }

/-- The events from `start` to `stop`, both included. -/
def getNodeChangeEvents (m : InMemoryStore) (start stop : Option EventTime) : NodeEvents :=
  m.journal.filter fun e => start.all (fun s => s ≤ e.time) && stop.all (fun t => e.time ≤ t)

def persistSnapshot (m : InMemoryStore) (time : EventTime) (snapshot : List UInt8) :
    InMemoryStore :=
  { m with snapshots := m.snapshots ++ [(time, snapshot)] }

def getLatestSnapshot (m : InMemoryStore) (upTo : EventTime) : Option (EventTime × List UInt8) :=
  latest (m.snapshots.filter fun row => row.1 ≤ upTo)

end InMemoryStore

/-! ### RocksDB -/

def encodeNodeEventJson (S : Serde) (event : TimedEvent NodeChangeEvent) : List UInt8 :=
  S.jsonToVec (event.toJson (NodeChangeEvent.toJson S))

def decodeNodeEventJson (S : Serde) (value : List UInt8) : Option (TimedEvent NodeChangeEvent) :=
  (S.jsonFromSlice value).bind (TimedEvent.ofJson (NodeChangeEvent.ofJson S))

structure RocksDbStore where
  nodeEvents : Table (EventTime ×ₗ Nat) (List UInt8)
  snapshots : Table EventTime (List UInt8)

namespace RocksDbStore

/-- The length of an identifier is stored in two bytes of a key. -/
def checkKey (qid : NexoraId) : Except PersistenceError Unit :=
  if qid.bytes.length > 65535 then .error (.backend "NexoraId is too long for RocksDB key encoding") else .ok ()

def journalRow (S : Serde) (qid : NexoraId) (entry : TimedEvent NodeChangeEvent × Nat) :
    Except PersistenceError ((EventTime ×ₗ Nat) × List UInt8) :=
  if 2 ^ 32 ≤ entry.2 then .error (.backend "too many events in one persistence batch")
  else (checkKey qid).map fun _ => (toLex (entry.1.time, entry.2), encodeNodeEventJson S entry.1)

def persistNodeChangeEvents (S : Serde) (r : RocksDbStore) (qid : NexoraId) (events : NodeEvents) :
    Except PersistenceError RocksDbStore :=
  (events.zipIdx.mapM (journalRow S qid)).map fun batch => { r with nodeEvents := r.nodeEvents.putAll batch }

def decodeRow (S : Serde) (row : (EventTime ×ₗ Nat) × List UInt8) :
    Except PersistenceError (TimedEvent NodeChangeEvent) :=
  match decodeNodeEventJson S row.2 with
  | some event => .ok event
  | none => .error (.serialization ("failed to decode node event: Deserialization error: " ++ S.jsonError row.2))

/-- A scan from the first row of `start` to the last one of `stop`. -/
def getNodeChangeEvents (S : Serde) (r : RocksDbStore) (qid : NexoraId)
    (start stop : Option EventTime) :
    Except PersistenceError NodeEvents :=
  let rows := r.nodeEvents.rows.filter fun row => start.all fun s => toLex (s, 0) ≤ row.1
  (checkKey qid).bind fun _ => (rows.takeWhile fun row => stop.all fun t => (ofLex row.1).1 ≤ t).mapM (decodeRow S)

def persistSnapshot (r : RocksDbStore) (qid : NexoraId) (time : EventTime) (snapshot : List UInt8) :
    Except PersistenceError RocksDbStore :=
  (checkKey qid).map fun _ => { r with snapshots := r.snapshots.put time snapshot }

/-- `seek_for_prev` from the key of `upTo`. -/
def getLatestSnapshot (r : RocksDbStore) (qid : NexoraId) (upTo : EventTime) :
    Except PersistenceError (Option (EventTime × List UInt8)) :=
  (checkKey qid).map fun _ => (r.snapshots.rows.filter fun row => row.1 ≤ upTo).getLast?

variable {qid : NexoraId}

theorem checkKey_of_le (h : qid.bytes.length ≤ 65535) : checkKey qid = .ok () :=
  if_neg (not_lt.mpr h)

theorem map_checkKey_eq_ok {A : Type} {f : Unit → A} {a : A} (h : (checkKey qid).map f = .ok a) :
    qid.bytes.length ≤ 65535 ∧ a = f () := by
  unfold checkKey at h
  split at h
  · cases h
  · next hle =>
    cases h
    exact ⟨not_lt.mp hle, rfl⟩

theorem journalRow_eq_ok {S : Serde} {entry : TimedEvent NodeChangeEvent × Nat}
    {row : (EventTime ×ₗ Nat) × List UInt8} (h : journalRow S qid entry = .ok row) :
    row = (toLex (entry.1.time, entry.2), encodeNodeEventJson S entry.1) := by
  unfold journalRow at h
  split at h
  · cases h
  · exact (map_checkKey_eq_ok h).2

def journalRows (S : Serde) (events : NodeEvents) : List ((EventTime ×ₗ Nat) × List UInt8) :=
  events.zipIdx.map fun entry => (toLex (entry.1.time, entry.2), encodeNodeEventJson S entry.1)

theorem mapM_journalRow_eq_ok {S : Serde} {entries : List (TimedEvent NodeChangeEvent × Nat)}
    {batch : List ((EventTime ×ₗ Nat) × List UInt8)}
    (h : entries.mapM (journalRow S qid) = .ok batch) :
    batch = entries.map fun entry => (toLex (entry.1.time, entry.2), encodeNodeEventJson S entry.1) := by
  rw [← forall₂_eq_eq_eq, forall₂_map_right_iff]
  exact ((mapM_eq_ok_iff.mp h).imp fun _ _ hrow => journalRow_eq_ok hrow).flip

theorem persistNodeChangeEvents_eq_ok {S : Serde} {r r' : RocksDbStore} {events : NodeEvents}
    (h : r.persistNodeChangeEvents S qid events = .ok r') :
    r' = { r with nodeEvents := r.nodeEvents.putAll (journalRows S events) } := by
  unfold persistNodeChangeEvents at h
  cases hbatch : events.zipIdx.mapM (journalRow S qid) with
  | error e =>
    rw [hbatch] at h
    cases h
  | ok batch =>
    rw [hbatch] at h
    cases h
    rw [journalRows, ← mapM_journalRow_eq_ok hbatch]

end RocksDbStore

/-! ### One node in either backend -/

inductive NodeStore where
  | inMemory (m : InMemoryStore)
  | rocksDb (r : RocksDbStore)

namespace NodeStore

def persistNodeChangeEvents (S : Serde) (st : NodeStore) (qid : NexoraId) (events : NodeEvents) :
    Except PersistenceError NodeStore :=
  match st with
  | .inMemory m => .ok (.inMemory (m.persistNodeChangeEvents events))
  | .rocksDb r => (r.persistNodeChangeEvents S qid events).map .rocksDb

def getNodeChangeEvents (S : Serde) (st : NodeStore) (qid : NexoraId)
    (start stop : Option EventTime) :
    Except PersistenceError NodeEvents :=
  match st with
  | .inMemory m => .ok (m.getNodeChangeEvents start stop)
  | .rocksDb r => r.getNodeChangeEvents S qid start stop

def persistSnapshot (st : NodeStore) (qid : NexoraId) (time : EventTime) (snapshot : List UInt8) :
    Except PersistenceError NodeStore :=
  match st with
  | .inMemory m => .ok (.inMemory (m.persistSnapshot time snapshot))
  | .rocksDb r => (r.persistSnapshot qid time snapshot).map .rocksDb

def getLatestSnapshot (st : NodeStore) (qid : NexoraId) (upTo : EventTime) :
    Except PersistenceError (Option (EventTime × List UInt8)) :=
  match st with
  | .inMemory m => .ok (m.getLatestSnapshot upTo)
  | .rocksDb r => r.getLatestSnapshot qid upTo

def eventTimes : NodeStore → List EventTime
  | .inMemory m => m.journal.map TimedEvent.time
  | .rocksDb r => r.nodeEvents.rows.map fun row => (ofLex row.1).1

def snapshotRows : NodeStore → List (EventTime × List UInt8)
  | .inMemory m => m.snapshots
  | .rocksDb r => r.snapshots.rows

def KeyOk (qid : NexoraId) : NodeStore → Prop
  | .inMemory _ => True
  | .rocksDb _ => qid.bytes.length ≤ 65535

variable {S : Serde} {st st' : NodeStore} {qid : NexoraId}
variable {events : NodeEvents}

theorem persistNodeChangeEvents_cases (h : st.persistNodeChangeEvents S qid events = .ok st') :
    (∃ m, st = .inMemory m ∧ st' = .inMemory (m.persistNodeChangeEvents events)) ∨
    (∃ r, st = .rocksDb r ∧
      st' = .rocksDb { r with nodeEvents := r.nodeEvents.putAll (RocksDbStore.journalRows S events) }) := by
  cases st with
  | inMemory m =>
    cases h
    exact Or.inl ⟨m, rfl, rfl⟩
  | rocksDb r =>
    cases hr : r.persistNodeChangeEvents S qid events with
    | error e =>
      rw [persistNodeChangeEvents, hr] at h
      cases h
    | ok r' =>
      rw [persistNodeChangeEvents, hr] at h
      cases h
      exact Or.inr ⟨r, rfl, congrArg rocksDb (RocksDbStore.persistNodeChangeEvents_eq_ok hr)⟩

variable {snapshot : List UInt8} {time : EventTime}

theorem persistSnapshot_cases (h : st.persistSnapshot qid time snapshot = .ok st') :
    (∃ m, st = .inMemory m ∧ st' = .inMemory (m.persistSnapshot time snapshot)) ∨
    (∃ r, st = .rocksDb r ∧ qid.bytes.length ≤ 65535 ∧
      st' = .rocksDb { r with snapshots := r.snapshots.put time snapshot }) := by
  cases st with
  | inMemory m =>
    cases h
    exact Or.inl ⟨m, rfl, rfl⟩
  | rocksDb r =>
    cases hr : r.persistSnapshot qid time snapshot with
    | error e =>
      rw [persistSnapshot, hr] at h
      cases h
    | ok r' =>
      rw [persistSnapshot, hr] at h
      cases h
      obtain ⟨hle, rfl⟩ := RocksDbStore.map_checkKey_eq_ok hr
      exact Or.inr ⟨r, rfl, hle, rfl⟩

theorem eventTimes_of_persistNodeChangeEvents
    (h : st.persistNodeChangeEvents S qid events = .ok st') :
    ∀ time ∈ st'.eventTimes, time ∈ st.eventTimes ∨ time ∈ events.map TimedEvent.time := by
  intro time htime
  obtain ⟨m, rfl, rfl⟩ | ⟨r, rfl, rfl⟩ := persistNodeChangeEvents_cases h
  · simpa [eventTimes, InMemoryStore.persistNodeChangeEvents] using htime
  · obtain ⟨row, hrow, rfl⟩ := mem_map.mp htime
    obtain hrow | hrow := Table.mem_of_mem_putAll hrow
    · obtain ⟨entry, hentry, rfl⟩ := mem_map.mp hrow
      exact Or.inr (mem_map_of_mem (fst_mem_of_mem_zipIdx hentry))
    · exact Or.inl (mem_map_of_mem hrow)

theorem snapshotRows_of_persistNodeChangeEvents
    (h : st.persistNodeChangeEvents S qid events = .ok st') :
    st'.snapshotRows = st.snapshotRows := by
  obtain ⟨m, rfl, rfl⟩ | ⟨r, rfl, rfl⟩ := persistNodeChangeEvents_cases h <;> rfl

section
variable (h : st.persistSnapshot qid time snapshot = .ok st')
include h

theorem eventTimes_of_persistSnapshot : st'.eventTimes = st.eventTimes := by
  obtain ⟨m, rfl, rfl⟩ | ⟨r, rfl, -, rfl⟩ := persistSnapshot_cases h <;> rfl

theorem mem_snapshotRows_of_persistSnapshot : (time, snapshot) ∈ st'.snapshotRows := by
  obtain ⟨m, rfl, rfl⟩ | ⟨r, rfl, -, rfl⟩ := persistSnapshot_cases h
  · exact mem_append_right _ (mem_singleton_self _)
  · exact mem_putRow_self _ _ _

theorem keyOk_of_persistSnapshot : st'.KeyOk qid := by
  obtain ⟨m, rfl, rfl⟩ | ⟨r, rfl, hkey, rfl⟩ := persistSnapshot_cases h
  · trivial
  · exact hkey

theorem getLatestSnapshot_of_persistSnapshot (hle : ∀ row ∈ st.snapshotRows, row.1 ≤ time) :
    st'.getLatestSnapshot qid EventTime.MAX = .ok (some (time, snapshot)) := by
  have hall : ∀ row : EventTime × List UInt8, decide (row.1 ≤ EventTime.MAX) = true :=
    fun row => decide_eq_true (EventTime.le_max row.1)
  obtain ⟨m, rfl, rfl⟩ | ⟨r, rfl, hkey, rfl⟩ := persistSnapshot_cases h
  · simp only [getLatestSnapshot, InMemoryStore.getLatestSnapshot, InMemoryStore.persistSnapshot, hall, filter_true]
    exact congrArg Except.ok (latest_append_of_forall_le hle snapshot)
  · simp only [getLatestSnapshot, RocksDbStore.getLatestSnapshot, RocksDbStore.checkKey_of_le hkey, hall,
      filter_true]
    exact congrArg Except.ok (getLast?_putRow r.snapshots.sorted hle snapshot)

end

theorem getNodeChangeEvents_above {start : EventTime}
    (habove : ∀ time ∈ st.eventTimes, time < start) (hkey : st.KeyOk qid) :
    st.getNodeChangeEvents S qid (some start) none = .ok [] := by
  cases st with
  | inMemory m =>
    have hnil : m.getNodeChangeEvents (some start) none = [] := by
      apply filter_eq_nil_iff.mpr
      intro e he
      have hlt := habove e.time (mem_map_of_mem he)
      simp [hlt]
    rw [getNodeChangeEvents, hnil]
  | rocksDb r =>
    have hnil : (r.nodeEvents.rows.filter fun row => (some start).all fun s => toLex (s, 0) ≤ row.1) = [] := by
      apply filter_eq_nil_iff.mpr
      intro row hrow
      have hlt := habove (ofLex row.1).1 (mem_map_of_mem hrow)
      simp [Prod.Lex.le_iff, hlt.le, ne_of_gt hlt]
    rw [getNodeChangeEvents, RocksDbStore.getNodeChangeEvents]
    simp only [RocksDbStore.checkKey_of_le hkey, hnil]
    rfl

end NodeStore

/-! ### All nodes -/

/-- A `dyn NamespacedPersistenceAgent`, which keeps its nodes apart. -/
abbrev Persistor := NexoraId → NodeStore

namespace Persistor

def persistNodeChangeEvents (S : Serde) (p : Persistor) (qid : NexoraId) (events : NodeEvents) :
    Except PersistenceError Persistor :=
  ((p qid).persistNodeChangeEvents S qid events).map (Function.update p qid)

end Persistor
end Nexora
