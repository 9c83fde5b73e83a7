import Nexora.Graph.Recovery

/-!
# Writing a journal again

A journal may reach the persistor more than once: by a sleep that failed, and by recovery. What is
written before recovery is a beginning of the events since the node was woken. The node wakes with
all of them when they are above its snapshots and, in RocksDB, keep their order under their keys.
-/

namespace Nexora
open Lib List NodeStore RocksDbStore NodeState

/-! ### Rows of a journal -/

namespace RocksDbStore
variable {S : Serde} {qid : NexoraId} {events : NodeEvents}

/-- Events that follow those of the journal fit into keys, keep their order under them, stand behind
all that is stored and can be read back. -/
structure Admits (S : Serde) (qid : NexoraId) (r : RocksDbStore) (journal events : NodeEvents) :
    Prop where
  key : qid.bytes.length ≤ 65535
  length : (journal ++ events).length ≤ 2 ^ 32
  ordered : (journal ++ events).Pairwise fun a b => a.time ≤ b.time
  above : ∀ row ∈ r.nodeEvents.rows, ∀ e ∈ events, (ofLex row.1).1 < e.time
  decodes : ∀ e ∈ events, decodeNodeEventJson S (encodeNodeEventJson S e) = some e

theorem length_journalRows (S : Serde) (events : NodeEvents) :
    (journalRows S events).length = events.length := by
  simp [journalRows]

theorem journalRows_isPrefix {batch : NodeEvents} (h : batch <+: events) :
    journalRows S batch <+: journalRows S events := by
  obtain ⟨more, rfl⟩ := h
  rw [journalRows, journalRows, zipIdx_append, map_append]
  exact prefix_append _ _

theorem sorted_journalRows (S : Serde) (h : events.Pairwise fun a b => a.time ≤ b.time) :
    (journalRows S events).Pairwise fun a b => a.1 < b.1 := by
  have htimes : (events.zipIdx.map Prod.fst).Pairwise fun a b => a.time ≤ b.time := by rwa [zipIdx_map_fst]
  have hplaces : (events.zipIdx.map Prod.snd).Pairwise (· < ·) := by
    rw [zipIdx_map_snd]
    exact pairwise_lt_range'
  rw [journalRows, pairwise_map]
  -- The place in the batch goes up even where the time does not.
  refine ((pairwise_map.mp htimes).and (pairwise_map.mp hplaces)).imp fun hab => ?_
  rw [Prod.Lex.toLex_lt_toLex]
  exact hab.1.lt_or_eq.imp_right fun heq => ⟨heq, hab.2⟩

theorem mapM_decodeRow_of_forall₂ {rows : List ((EventTime ×ₗ Nat) × List UInt8)}
    (h : Forall₂ (fun row e => (ofLex row.1).1 = e.time ∧ decodeNodeEventJson S row.2 = some e) rows events) :
    rows.mapM (decodeRow S) = .ok events :=
  mapM_eq_ok_iff.mpr (h.imp fun _ _ hrow => by rw [decodeRow, hrow.2])

theorem forall₂_journalRows
    (h : ∀ e ∈ events, decodeNodeEventJson S (encodeNodeEventJson S e) = some e) :
    Forall₂ (fun row e => (ofLex row.1).1 = e.time ∧ decodeNodeEventJson S row.2 = some e)
    (journalRows S events)
      events := by
  nth_rewrite 2 [← zipIdx_map_fst 0 events]
  rw [journalRows, forall₂_map_left_iff, forall₂_map_right_iff, forall₂_same]
  exact fun entry hentry => ⟨rfl, h entry.1 (fst_mem_of_mem_zipIdx hentry)⟩

theorem mapM_decodeRow_journalRows
    (h : ∀ e ∈ events, decodeNodeEventJson S (encodeNodeEventJson S e) = some e) :
    (journalRows S events).mapM (decodeRow S) = .ok events :=
  mapM_decodeRow_of_forall₂ (forall₂_journalRows h)

theorem mapM_journalRow (hkey : qid.bytes.length ≤ 65535)
    {entries : List (TimedEvent NodeChangeEvent × Nat)} (h : ∀ entry ∈ entries, entry.2 < 2 ^ 32) :
    entries.mapM (journalRow S qid) =
      .ok (entries.map fun entry => (toLex (entry.1.time, entry.2), encodeNodeEventJson S entry.1)) := by
  rw [mapM_eq_ok_iff, forall₂_map_right_iff, forall₂_same]
  intro entry hentry
  rw [journalRow, if_neg (not_le.mpr (h entry hentry)), checkKey_of_le hkey]
  rfl

theorem persistNodeChangeEvents_of_le (hkey : qid.bytes.length ≤ 65535)
    (hlength : events.length ≤ 2 ^ 32) (r : RocksDbStore) :
    r.persistNodeChangeEvents S qid events = .ok { r with nodeEvents := r.nodeEvents.putAll (journalRows S events) } := by
  have hplaces : ∀ entry ∈ events.zipIdx, entry.2 < 2 ^ 32 := fun entry hentry =>
    lt_of_lt_of_le (by simpa using snd_lt_of_mem_zipIdx hentry) hlength
  rw [persistNodeChangeEvents, mapM_journalRow hkey hplaces]
  rfl

theorem Admits.sorted {r : RocksDbStore} (h : r.Admits S qid [] events) :
    (r.nodeEvents.rows ++ journalRows S events).Pairwise fun a b => a.1 < b.1 := by
  refine pairwise_append.mpr ⟨r.nodeEvents.sorted, sorted_journalRows S h.ordered, fun old hold row hrow => ?_⟩
  obtain ⟨entry, hentry, rfl⟩ := mem_map.mp hrow
  have hlt := h.above old hold entry.1 (fst_mem_of_mem_zipIdx hentry)
  exact Prod.Lex.lt_iff.mpr (Or.inl hlt)

end RocksDbStore

/-! ### Beginnings of the same events -/

/-- These events, which follow those of the journal, are read back from the store above its
snapshots. -/
def NodeStore.Admits (S : Serde) (qid : NexoraId) (st : NodeStore) (journal events : NodeEvents) :
    Prop :=
  (∀ row ∈ st.snapshotRows, ∀ e ∈ events, row.1 < e.time) ∧
    match st with
    | .inMemory _ => True
    | .rocksDb r => r.Admits S qid journal events

inductive PersistedFrom (S : Serde) (qid : NexoraId) (events : NodeEvents) (origin : NodeStore) :
    NodeStore → Prop
  | start : PersistedFrom S qid events origin origin
  | persist {st st' : NodeStore} {batch : NodeEvents} (h : PersistedFrom S qid events origin st)
    (hbatch : batch <+: events)
      (hpersist : st.persistNodeChangeEvents S qid batch = .ok st') : PersistedFrom S qid events origin st'

section Persisted
variable {S : Serde} {qid : NexoraId} {journal events : NodeEvents} {origin st : NodeStore}

theorem NodeStore.Admits.of_isPrefix (h : origin.Admits S qid [] events)
    (hbegins : journal <+: events) :
    origin.Admits S qid [] journal := by
  refine ⟨fun row hrow e he => h.1 row hrow e (hbegins.subset he), ?_⟩
  cases origin with
  | inMemory m => trivial
  | rocksDb r =>
    have hr : r.Admits S qid [] events := h.2
    exact ⟨hr.key, le_trans hbegins.length_le hr.length, hr.ordered.sublist hbegins.sublist,
      fun row hrow e he => hr.above row hrow e (hbegins.subset he), fun e he => hr.decodes e (hbegins.subset he)⟩

theorem PersistedFrom.mono (h : PersistedFrom S qid journal origin st)
    (hbegins : journal <+: events) :
    PersistedFrom S qid events origin st := by
  induction h with
  | start => exact .start
  | persist _ hbatch hpersist ih => exact .persist ih (hbatch.trans hbegins) hpersist

section
variable (h : PersistedFrom S qid events origin st)
include h

theorem PersistedFrom.cases (hadmits : origin.Admits S qid [] events) :
    (∃ (m : InMemoryStore) (batches : List NodeEvents), origin = .inMemory m ∧ (∀ batch ∈ batches, batch <+: events) ∧
      st = .inMemory { m with journal := m.journal ++ batches.flatten }) ∨
    (∃ r t batch, origin = .rocksDb r ∧ batch <+: events ∧ st = .rocksDb { r with nodeEvents := t } ∧
      t.rows = r.nodeEvents.rows ++ journalRows S batch) := by
  induction h with
  | start =>
    cases origin with
    | inMemory m => exact Or.inl ⟨m, [], rfl, fun _ h => absurd h not_mem_nil, by simp⟩
    | rocksDb r => exact Or.inr ⟨r, r.nodeEvents, [], rfl, nil_prefix, rfl, (append_nil _).symm⟩
  | @persist st st' batch _ hbatch hpersist ih =>
    obtain ⟨m, batches, rfl, hbatches, rfl⟩ | ⟨r, t, old, rfl, hold, rfl, ht⟩ := ih
    · cases hpersist
      refine Or.inl ⟨m, batches ++ [batch], rfl, fun b hb => ?_, ?_⟩
      · obtain hb | hb := mem_append.mp hb
        · exact hbatches b hb
        · exact mem_singleton.mp hb ▸ hbatch
      · simp [InMemoryStore.persistNodeChangeEvents]
    · obtain ⟨m, hm, -⟩ | ⟨r', hr', rfl⟩ := persistNodeChangeEvents_cases hpersist
      · cases hm
      · cases hr'
        have hr : r.Admits S qid [] events := hadmits.2
        have hrows := Table.rows_putAll_of_isPrefix ht (journalRows_isPrefix hold)
          (journalRows_isPrefix hbatch) hr.sorted
        rw [← apply_ite (journalRows S)] at hrows
        refine Or.inr ⟨r, _, _, rfl, ?_, rfl, hrows⟩
        split
        · exact hold
        · exact hbatch

omit h in
theorem PersistedFrom.eq_of_nil (h : PersistedFrom S qid [] origin st) : st = origin := by
  induction h with
  | start => rfl
  | @persist st st' batch _ hbatch hpersist ih =>
    rw [prefix_nil.mp hbatch] at hpersist
    rw [← ih]
    obtain ⟨m, rfl, rfl⟩ | ⟨r, rfl, rfl⟩ := persistNodeChangeEvents_cases hpersist
    · simp [InMemoryStore.persistNodeChangeEvents]
    · rfl

theorem PersistedFrom.snapshotRows : st.snapshotRows = origin.snapshotRows := by
  induction h with
  | start => rfl
  | persist _ _ hpersist ih => rw [snapshotRows_of_persistNodeChangeEvents hpersist, ih]

theorem PersistedFrom.persistJournal {snap : NodeStateSnapshot} (hbegins : snap.journal <+: events)
    {st' : NodeStore} (hpersist : persistJournal S st qid snap = .ok st') :
    PersistedFrom S qid events origin st' := by
  obtain rfl | hwrite := persistJournal_eq_ok hpersist
  · exact h
  · exact .persist h hbegins hwrite

end

theorem NodeStore.Admits.append (hadmits : origin.Admits S qid [] journal)
    (h : PersistedFrom S qid journal origin st) (hnext : st.Admits S qid journal events) :
    origin.Admits S qid [] (journal ++ events) := by
  refine ⟨fun row hrow e he => ?_, ?_⟩
  · obtain he | he := mem_append.mp he
    · exact hadmits.1 row hrow e he
    · exact hnext.1 row (h.snapshotRows ▸ hrow) e he
  · obtain ⟨m, batches, rfl, -, -⟩ | ⟨r, t, batch, rfl, -, rfl, ht⟩ := h.cases hadmits
    · trivial
    · have hr : r.Admits S qid [] journal := hadmits.2
      have hst := hnext.2
      refine ⟨hr.key, hst.length, hst.ordered, fun row hrow e he => ?_, fun e he => ?_⟩
      · obtain he | he := mem_append.mp he
        · exact hr.above row hrow e he
        · exact hst.above row (ht ▸ mem_append_left _ hrow) e he
      · obtain he | he := mem_append.mp he
        · exact hr.decodes e he
        · exact hst.decodes e he

end Persisted

/-! ### Waking from a rewritten journal -/

section Restore
variable {S : Serde} {codec : SnapshotCodec} {qid : NexoraId} {journal events : NodeEvents}
    {origin st : NodeStore}
  {state : NodeState}

variable {now : EventTime} {task : NodeTask} {r : RocksDbStore}
    {t : Table (EventTime ×ₗ Nat) (List UInt8)}

theorem wakeNode_eq_ok (h : wakeNode S codec st qid now = .ok task) :
    ∃ snapshot recovered read, st.getLatestSnapshot qid EventTime.MAX = .ok snapshot ∧
      recoverSnapshot codec snapshot = .ok recovered ∧
      st.getNodeChangeEvents S qid (snapshot.map fun row => row.1.saturatingSucc) none = .ok read ∧
      task = .spawnWithFullState now (recovered.applyEvents read) (latestTime read) := by
  unfold wakeNode at h
  split at h
  · cases h
  next snapshot hsnapshot =>
  split at h
  · cases h
  next recovered hrecovered =>
  split at h
  · cases h
  next read hread => exact ⟨snapshot, recovered, read, hsnapshot, hrecovered, hread, (Except.ok.inj h).symm⟩

theorem wakesWith_iff : WakesWith S codec qid st state ↔
    ∃ snapshot recovered read, st.getLatestSnapshot qid EventTime.MAX = .ok snapshot ∧
      recoverSnapshot codec snapshot = .ok recovered ∧
      st.getNodeChangeEvents S qid (snapshot.map fun row => row.1.saturatingSucc) none = .ok read ∧
      recovered.applyEvents read = state := by
  constructor
  · intro h
    obtain ⟨woken, hwake, rfl⟩ := h 0
    obtain ⟨snapshot, recovered, read, hsnapshot, hrecovered, hread, rfl⟩ := wakeNode_eq_ok hwake
    exact ⟨snapshot, recovered, read, hsnapshot, hrecovered, hread, rfl⟩
  · rintro ⟨snapshot, recovered, read, hsnapshot, hrecovered, hread, rfl⟩ now
    refine ⟨.spawnWithFullState now (recovered.applyEvents read) (latestTime read), ?_, rfl⟩
    simp [wakeNode, hsnapshot, hrecovered, hread]

theorem WakesWith.state_eq (h : WakesWith S codec qid st state)
    (hwake : wakeNode S codec st qid now = .ok task) : task.state = state := by
  obtain ⟨woken, hwoken, hstate⟩ := h now
  rw [← Except.ok.inj (hwoken.symm.trans hwake), hstate]

theorem wakesWith_of_wakeNode (h : wakeNode S codec st qid now = .ok task) :
    WakesWith S codec qid st task.state := by
  obtain ⟨snapshot, recovered, read, hsnapshot, hrecovered, hread, rfl⟩ := wakeNode_eq_ok h
  exact wakesWith_iff.mpr ⟨snapshot, recovered, read, hsnapshot, hrecovered, hread, rfl⟩

theorem WakesWith.admits_nil (h : WakesWith S codec qid st state) : st.Admits S qid [] [] := by
  refine ⟨fun _ _ e he => absurd he not_mem_nil, ?_⟩
  cases st with
  | inMemory m => trivial
  | rocksDb r =>
    obtain ⟨snapshot, -, -, hsnapshot, -⟩ := wakesWith_iff.mp h
    exact ⟨(map_checkKey_eq_ok hsnapshot).1, Nat.zero_le _, Pairwise.nil,
      fun _ _ e he => absurd he not_mem_nil, fun e he => absurd he not_mem_nil⟩

def Restores (S : Serde) (codec : SnapshotCodec) (qid : NexoraId) (st : NodeStore)
    (events : NodeEvents) (state : NodeState) : Prop :=
  ∃ st', replayStore S st qid events = .ok st' ∧ WakesWith S codec qid st' state

theorem mem_snapshotRows_of_getLatestSnapshot {upTo : EventTime} {row : EventTime × List UInt8}
    (h : st.getLatestSnapshot qid upTo = .ok (some row)) : row ∈ st.snapshotRows := by
  cases st with
  | inMemory m => exact mem_of_mem_filter (mem_of_latest (Except.ok.inj h))
  | rocksDb r =>
    obtain ⟨-, hlast⟩ := map_checkKey_eq_ok h
    exact mem_of_mem_filter (mem_of_getLast? hlast.symm)

theorem applyEvents_batches_append (hemits : state.Emits events) {batches : List NodeEvents}
    (hbatches : ∀ batch ∈ batches, batch <+: events) :
    state.applyEvents (batches.flatten ++ events) = state.applyEvents events := by
  have hemitted := hemits.emitted
  clear hemits
  induction batches generalizing state with
  | nil => rfl
  | cons batch batches ih =>
    obtain ⟨⟨rest, hrest⟩, hrestBatches⟩ := forall_mem_cons.mp hbatches
    have hbatch : ∀ e ∈ batch, e.Emitted := fun e he => hemitted e (hrest ▸ mem_append_left _ he)
    have hcopies : ∀ e ∈ batches.flatten, e.Emitted := fun e he => by
      obtain ⟨copy, hcopy, he⟩ := mem_flatten.mp he
      exact hemitted e ((hrestBatches copy hcopy).subset he)
    have habsorbed := applyEvent_absorbs.foldl_again hbatch hcopies state
    calc state.applyEvents ((batch :: batches).flatten ++ events)
      _ = (batch.foldl applyEvent (batches.flatten.foldl applyEvent
            (batch.foldl applyEvent state))).applyEvents rest := by
          simp [← hrest, applyEvents]
      _ = state.applyEvents (batches.flatten ++ events) := by
          rw [habsorbed, ← hrest]
          simp [applyEvents]
      _ = state.applyEvents events := ih hrestBatches

theorem RocksDbStore.Admits.replayStore (h : r.Admits S qid [] events) {batch : NodeEvents}
    (hbatch : batch <+: events) (ht : t.rows = r.nodeEvents.rows ++ journalRows S batch) :
    ∃ t', replayStore S (.rocksDb { r with nodeEvents := t }) qid events =
        .ok (.rocksDb { r with nodeEvents := t' }) ∧
      t'.rows = r.nodeEvents.rows ++ journalRows S events := by
  by_cases hempty : events = []
  · subst hempty
    rw [prefix_nil.mp hbatch] at ht
    exact ⟨t, rfl, ht⟩
  · refine ⟨t.putAll (journalRows S events), ?_, ?_⟩
    · have hpersist := persistNodeChangeEvents_of_le (S := S) h.key h.length { r with nodeEvents := t }
      rw [nil_append] at hpersist
      simp only [Nexora.replayStore, List.isEmpty_iff, if_neg hempty, NodeStore.persistNodeChangeEvents, hpersist]
      rfl
    · rw [Table.rows_putAll_of_isPrefix ht (journalRows_isPrefix hbatch) prefix_rfl h.sorted]
      simp only [length_journalRows]
      split
      · next hle => rw [hbatch.eq_of_length_le hle]
      · rfl

theorem RocksDbStore.getNodeChangeEvents_append (h : r.Admits S qid [] events)
    {start : Option EventTime} (habove : ∀ e ∈ events, start.all (fun s => s ≤ e.time) = true)
    (ht : t.rows = r.nodeEvents.rows ++ journalRows S events)
    {read : NodeEvents} (hread : r.getNodeChangeEvents S qid start none = .ok read) :
    getNodeChangeEvents S { r with nodeEvents := t } qid start none = .ok (read ++ events) := by
  have hkept : ∀ row ∈ journalRows S events, (start.all fun s => toLex (s, 0) ≤ row.1) = true := by
    intro row hrow
    obtain ⟨entry, hentry, rfl⟩ := mem_map.mp hrow
    have hle := habove entry.1 (fst_mem_of_mem_zipIdx hentry)
    cases start with
    | none => rfl
    | some s =>
      have htime : s ≤ entry.1.time := of_decide_eq_true hle
      refine decide_eq_true (Prod.Lex.toLex_le_toLex.mpr ?_)
      exact htime.lt_or_eq.imp_right fun heq => ⟨heq, Nat.zero_le _⟩
  have hwhole : ∀ rows : List ((EventTime ×ₗ Nat) × List UInt8),
      rows.takeWhile (fun _ => true) = rows :=
    fun rows => takeWhile_eq_self_iff.mpr fun _ _ => rfl
  simp only [getNodeChangeEvents, checkKey_of_le h.key, Except.bind, Option.all_none, hwhole] at hread ⊢
  rw [ht, filter_append, filter_eq_self.mpr hkept, mapM_append, hread, mapM_decodeRow_journalRows h.decodes]
  rfl

/-- **Recovery over beginnings of the events.** When all events are written to a store that has some
of them, the node wakes with all of them. -/
theorem PersistedFrom.restores (h : PersistedFrom S qid journal origin st)
    (hbegins : journal <+: events) (hadmits : origin.Admits S qid [] events)
    (hwakes : WakesWith S codec qid origin state) (hemits : state.Emits events) :
    Restores S codec qid st events (state.applyEvents events) := by
  obtain ⟨snapshot, recovered, read, hsnapshot, hrecovered, hread, rfl⟩ := wakesWith_iff.mp hwakes
  have habove : ∀ e ∈ events, (snapshot.map fun row => row.1.saturatingSucc).all (fun s => s ≤ e.time) = true := by
    intro e he
    cases snapshot with
    | none => rfl
    | some row =>
      have hlt := hadmits.1 row (mem_snapshotRows_of_getLatestSnapshot hsnapshot) e he
      exact decide_eq_true ((EventTime.saturatingSucc_le_iff _ _).mpr (Or.inl hlt))
  obtain ⟨m, batches, rfl, hbatches, rfl⟩ | ⟨r, t, batch, rfl, hbatch, rfl, ht⟩ :=
    (h.mono hbegins).cases hadmits
  · refine ⟨.inMemory { m with journal := m.journal ++ (batches.flatten ++ events) }, ?_, wakesWith_iff.mpr
      ⟨snapshot, recovered, read ++ (batches.flatten ++ events), hsnapshot, hrecovered, ?_, ?_⟩⟩
    · unfold replayStore
      split
      · next hempty => rw [isEmpty_iff.mp hempty, append_nil]
      · simp [NodeStore.persistNodeChangeEvents, InMemoryStore.persistNodeChangeEvents]
    · have hall : ∀ e ∈ batches.flatten ++ events,
          (snapshot.map fun row => row.1.saturatingSucc).all (fun s => s ≤ e.time) = true := by
        intro e he
        obtain he | he := mem_append.mp he
        · obtain ⟨copy, hcopy, he⟩ := mem_flatten.mp he
          exact habove e ((hbatches copy hcopy).subset he)
        · exact habove e he
      have hfilter := Except.ok.inj hread
      simp only [InMemoryStore.getNodeChangeEvents, Option.all_none, Bool.and_true] at hfilter
      simp only [NodeStore.getNodeChangeEvents, InMemoryStore.getNodeChangeEvents, Option.all_none, Bool.and_true]
      rw [filter_append, hfilter, filter_eq_self.mpr hall]
    · rw [applyEvents_append, applyEvents_batches_append hemits hbatches]
  · have hr : r.Admits S qid [] events := hadmits.2
    obtain ⟨t', hreplay, ht'⟩ := hr.replayStore hbatch ht
    refine ⟨_, hreplay, wakesWith_iff.mpr ⟨snapshot, recovered, read ++ events, hsnapshot, hrecovered, ?_, ?_⟩⟩
    · exact getNodeChangeEvents_append hr habove ht' hread
    · rw [applyEvents_append]

end Restore

/-! ### Recovery over a snapshot -/

def NodeStore.Fits (qid : NexoraId) (events : NodeEvents) : NodeStore → Prop
  | .inMemory _ => True
  | .rocksDb _ => qid.bytes.length ≤ 65535 ∧ events.length ≤ 2 ^ 32

/-- The latest snapshot holds this state, and neither a stored event nor one of the journal is above
it. -/
structure Snapshotted (codec : SnapshotCodec) (qid : NexoraId) (journal : NodeEvents)
    (state : NodeState) (time : EventTime)
    (st : NodeStore) : Prop where
  latest : ∃ data, st.getLatestSnapshot qid EventTime.MAX = .ok (some (time, data)) ∧ codec.deserialize data = .ok state
  stored : ∀ t ∈ st.eventTimes, t ≤ time
  journaled : ∀ t ∈ journal.map TimedEvent.time, t ≤ time
  succ : time < EventTime.MAX
  fits : st.Fits qid journal

section Snapshot
variable {S : Serde} {codec : SnapshotCodec} {qid : NexoraId} {journal events : NodeEvents}
    {origin st st' : NodeStore}
  {state : NodeState} {time : EventTime}

theorem NodeStore.Fits.keyOk (h : st.Fits qid events) : st.KeyOk qid := by
  cases st with
  | inMemory m => trivial
  | rocksDb r => exact h.1

theorem NodeStore.Fits.persistNodeChangeEvents (h : st.Fits qid events) (S : Serde) :
    ∃ st', st.persistNodeChangeEvents S qid events = .ok st' ∧ st'.Fits qid events := by
  cases st with
  | inMemory m => exact ⟨_, rfl, trivial⟩
  | rocksDb r =>
    refine ⟨.rocksDb { r with nodeEvents := r.nodeEvents.putAll (journalRows S events) }, ?_, h⟩
    rw [persistNodeChangeEvents, persistNodeChangeEvents_of_le h.1 h.2]
    rfl

theorem NodeStore.Fits.persistSnapshot {data : List UInt8} (h : st.Fits qid events)
    (hpersist : st.persistSnapshot qid time data = .ok st') : st'.Fits qid events := by
  obtain ⟨m, rfl, rfl⟩ | ⟨r, rfl, -, rfl⟩ := persistSnapshot_cases hpersist
  · trivial
  · exact h

theorem PersistedFrom.fits (h : PersistedFrom S qid events origin st)
    (hadmits : origin.Admits S qid [] events) :
    st.Fits qid events := by
  obtain ⟨m, batches, rfl, -, rfl⟩ | ⟨r, t, batch, rfl, -, rfl, -⟩ := h.cases hadmits
  · trivial
  · have hr : r.Admits S qid [] events := hadmits.2
    exact ⟨hr.key, hr.length⟩

section
variable (h : Snapshotted codec qid journal state time st)
include h

theorem Snapshotted.wakesWith (S : Serde) : WakesWith S codec qid st state := by
  obtain ⟨data, hlatest, hdata⟩ := h.latest
  exact fun now => ⟨_, wakeNode_of_snapshot hlatest hdata h.stored h.succ h.fits.keyOk now, rfl⟩

theorem Snapshotted.persist (hpersist : st.persistNodeChangeEvents S qid journal = .ok st')
    (hfits : st'.Fits qid journal) :
    Snapshotted codec qid journal state time st' where
  latest := by
    obtain ⟨data, hlatest, hdata⟩ := h.latest
    refine ⟨data, ?_, hdata⟩
    obtain ⟨m, rfl, rfl⟩ | ⟨r, rfl, rfl⟩ := persistNodeChangeEvents_cases hpersist <;> exact hlatest
  stored := fun t ht => (eventTimes_of_persistNodeChangeEvents hpersist t ht).elim (h.stored t) (h.journaled t)
  journaled := h.journaled
  succ := h.succ
  fits := hfits

theorem Snapshotted.restores (S : Serde) :
    Restores S codec qid st journal state ∧ Restores S codec qid st [] state := by
  have hnil : Restores S codec qid st [] state := ⟨st, rfl, h.wakesWith S⟩
  refine ⟨?_, hnil⟩
  by_cases hempty : journal = []
  · rw [hempty]
    exact hnil
  · obtain ⟨st', hpersist, hfits⟩ := h.fits.persistNodeChangeEvents S
    refine ⟨st', ?_, (h.persist hpersist hfits).wakesWith S⟩
    simp [replayStore, if_neg hempty, hpersist]

end

theorem snapshotted_of_persistState {snap : NodeStateSnapshot} {now : EventTime}
    (h : persistState codec st qid snap now = .ok st')
    (hrows : ∀ row ∈ st.snapshotRows, row.1 ≤ snap.time now)
    (hevents : ∀ t ∈ st.eventTimes, t ≤ snap.time now) (hmax : snap.time now < EventTime.MAX)
    (hcodec : codec.ReadsBack snap.state) (hfits : st.Fits qid snap.journal) :
    Snapshotted codec qid snap.journal snap.state (snap.time now) st' := by
  obtain ⟨data, hdata, hpersist⟩ := persistState_eq_ok h
  refine ⟨⟨data, getLatestSnapshot_of_persistSnapshot hpersist hrows, hcodec data hdata⟩, ?_, snap.le_time now,
    hmax, hfits.persistSnapshot hpersist⟩
  rw [eventTimes_of_persistSnapshot hpersist]
  exact hevents

end Snapshot
end Nexora
