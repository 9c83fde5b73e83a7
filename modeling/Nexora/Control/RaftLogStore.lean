import Nexora.Control.Store
import Nexora.Lib.Numeral

/-!
# The log store of the control plane

The log of the consensus in RocksDB (`nexora-zenoh/src/control_raft_log.rs`): entries under `log/`
and their index in twenty digits, the vote and the purged place under keys of their own. The rows
stand for a log. A bound that is one more than the last index of 64 bits is zero.
-/

namespace Nexora.Control
open Lib List Option Bool Table

abbrev LogIndex := Fin (2 ^ 64)

structure LogId (L : Type) where
  leader : L
  index : LogIndex
  deriving DecidableEq

structure LogEntry (L P : Type) where
  logId : LogId L
  payload : P

inductive IndexBound
  | included (index : LogIndex)
  | excluded (index : LogIndex)
  | unbounded

structure LogSerde (L P W B : Type) where
  entry : Serde (LogEntry L P) B
  vote : Serde W B
  purged : Serde (Option (LogId L)) B

structure LogSerde.Keeps {L P W B : Type} (serde : LogSerde L P W B) : Prop where
  entry : ∀ entry, serde.entry.Keeps entry
  vote : ∀ vote, serde.vote.Keeps vote
  purged : ∀ purged, serde.purged.Keeps purged

/-! ### The store -/

def logStart : List UInt8 := utf8Bytes "log/"

def voteKey : List UInt8 := utf8Bytes "meta/vote"

def purgedKey : List UInt8 := utf8Bytes "meta/purged"

def logKey (index : LogIndex) : List UInt8 := logStart ++ fixedNumeral 10 20 index.val

def parseLogKey (key : List UInt8) : Option Nat :=
  parseNumeral 10 (2 ^ 64) (key.drop logStart.length)

def IndexBound.start : IndexBound → LogIndex
  | .included index => index
  | .excluded index => index + 1
  | .unbounded => 0

def IndexBound.stop : IndexBound → LogIndex
  | .included index => index + 1
  | .excluded index => index
  | .unbounded => Fin.last (2 ^ 64 - 1)

structure ControlLogStore (B : Type) where
  db : Table (List UInt8) B

namespace ControlLogStore
variable {L P W B : Type} (serde : LogSerde L P W B)

/-- The entries of a scan, up to a key of another kind or an index that is too large. -/
def readEntries (stop : LogIndex) : List (List UInt8 × B) → Option (List (LogEntry L P))
  | [] => some []
  | row :: rows =>
    if logStart.isPrefixOf row.1 then
      match parseLogKey row.1 with
      | none => none
      | some index =>
        if stop.val ≤ index then some []
        else (serde.entry.fromSlice row.2).bind fun entry => (readEntries stop rows).map (entry :: ·)
    else some []

def tryGetLogEntries (store : ControlLogStore B) (start stop : IndexBound) :
    Option (List (LogEntry L P)) :=
  readEntries serde stop.stop (store.db.seek (logKey start.start))

def lastPurged (store : ControlLogStore B) : Option (Option (LogId L)) :=
  match store.db.find? purgedKey with
  | none => some none
  | some bytes => serde.purged.fromSlice bytes

def getLogState (store : ControlLogStore B) : Option (Option (LogId L) × Option (LogId L)) := do
  let purged ← store.lastPurged serde
  match (store.db.seekForPrev (logKey (Fin.last (2 ^ 64 - 1)))).filter fun row => logStart.isPrefixOf row.1 with
  | some row =>
    let entry ← serde.entry.fromSlice row.2
    return (purged, some entry.logId)
  | none => return (purged, purged)

def readVote (store : ControlLogStore B) : Option (Option W) :=
  match store.db.find? voteKey with
  | none => some none
  | some bytes => (serde.vote.fromSlice bytes).map some

def saveVote (store : ControlLogStore B) (vote : W) : Option (ControlLogStore B) :=
  (serde.vote.toVec vote).map fun bytes => ⟨store.db.put voteKey bytes⟩

def append (store : ControlLogStore B) (entries : List (LogEntry L P)) :
    Option (ControlLogStore B) :=
  (entries.mapM fun entry => (serde.entry.toVec entry).map fun bytes => (logKey entry.logId.index, bytes)).map fun rows =>
    ⟨store.db.putAll rows⟩

def truncate (store : ControlLogStore B) (logId : LogId L) : ControlLogStore B :=
  ⟨store.db.eraseAll (((store.db.seek (logKey logId.index)).takeWhile fun row => logStart.isPrefixOf row.1).map Prod.fst)⟩

/-- The keys of the entries up to an index; keys of another kind are passed over. -/
def purgedKeys (index : LogIndex) : List (List UInt8 × B) → Option (List (List UInt8))
  | [] => some []
  | row :: rows =>
    if logStart.isPrefixOf row.1 then
      match parseLogKey row.1 with
      | none => none
      | some other => if index.val < other then some [] else (purgedKeys index rows).map (row.1 :: ·)
    else purgedKeys index rows

def purge (store : ControlLogStore B) (logId : LogId L) : Option (ControlLogStore B) := do
  let keys ← purgedKeys logId.index store.db.rows
  let bytes ← serde.purged.toVec (some logId)
  return ⟨(store.db.eraseAll keys).put purgedKey bytes⟩

end ControlLogStore

/-! ### The log -/

/-- **A log**: the entries behind the part that has been purged, and the vote. -/
structure RaftLog (L P W : Type) where
  purged : Option (LogId L)
  entries : List (LogEntry L P)
  vote : Option W

inductive LogCall (L P W : Type)
  | append (entries : List (LogEntry L P))
  | truncate (logId : LogId L)
  | purge (logId : LogId L)
  | saveVote (vote : W)
  | reopen

def IndexBound.IsAfter (index : LogIndex) : IndexBound → Bool
  | .included start => start ≤ index
  | .excluded start => start < index
  | .unbounded => true

def IndexBound.IsBefore (index : LogIndex) : IndexBound → Bool
  | .included stop => index ≤ stop
  | .excluded stop => index < stop
  | .unbounded => true

namespace RaftLog
variable {L P W : Type}

def range (log : RaftLog L P W) (start stop : IndexBound) : List (LogEntry L P) :=
  log.entries.filter fun entry => start.IsAfter entry.logId.index && stop.IsBefore entry.logId.index

def lastLogId (log : RaftLog L P W) : Option (LogId L) :=
  (log.entries.getLast?.map LogEntry.logId).or log.purged

def nextIndex (log : RaftLog L P W) : Nat := log.lastLogId.elim 0 fun logId => logId.index.val + 1

def step (log : RaftLog L P W) : LogCall L P W → RaftLog L P W
  | .append entries => { log with entries := log.entries ++ entries }
  | .truncate logId => { log with entries := log.entries.filter fun entry => entry.logId.index < logId.index }
  | .purge logId =>
    { log with
      purged := if log.purged.any fun purged => logId.index ≤ purged.index then log.purged else some logId
      entries := log.entries.filter fun entry => logId.index < entry.logId.index }
  | .saveVote vote => { log with vote := some vote }
  | .reopen => log

/-- Entries are appended from the next index on, and the log is not purged up to a place before that
of an earlier purge. -/
def Admits (log : RaftLog L P W) : LogCall L P W → Prop
  | .append entries => entries.map (fun entry => entry.logId.index.val) = range' log.nextIndex entries.length
  | .purge logId => ∀ purged ∈ log.purged, purged.index < logId.index ∨ purged = logId
  | _ => True

/-- The bounds of the range can be counted up, and the last index of all is not among the entries
that an open range is for. -/
def Readable (log : RaftLog L P W) (start stop : IndexBound) : Prop :=
  (∀ index, start = .excluded index → index.val + 1 < 2 ^ 64) ∧
    match stop with
    | .included index => index.val + 1 < 2 ^ 64
    | .excluded _ => True
    | .unbounded => ∀ entry ∈ log.entries, entry.logId.index.val + 1 < 2 ^ 64

end RaftLog

namespace ControlLogStore
variable {L P W B : Type} (serde : LogSerde L P W B)

/-- A call that fails leaves the store as it is. -/
def step (store : ControlLogStore B) : LogCall L P W → ControlLogStore B
  | .append entries => (store.append serde entries).getD store
  | .truncate logId => store.truncate logId
  | .purge logId => (store.purge serde logId).getD store
  | .saveVote vote => (store.saveVote serde vote).getD store
  | .reopen => store

structure Agrees (store : ControlLogStore B) (log : RaftLog L P W) : Prop where
  entries : ∀ start stop, log.Readable start stop → store.tryGetLogEntries serde start stop = some (log.range start stop)
  state : store.getLogState serde = some (log.purged, log.lastLogId)
  vote : store.readVote serde = some log.vote

def logRows (db : Table (List UInt8) B) : List (List UInt8 × B) :=
  db.rows.filter fun row => logStart.isPrefixOf row.1

/-- The rows of the log are those of its entries, in their order. -/
structure Represents (store : ControlLogStore B) (log : RaftLog L P W) : Prop where
  rows : ((logRows store.db).map fun row => (row.1, serde.entry.fromSlice row.2)) =
    log.entries.map fun entry => (logKey entry.logId.index, some entry)
  purged : store.lastPurged serde = some log.purged
  vote : store.readVote serde = some log.vote

end ControlLogStore

/-! ### Keys -/

theorem logKey_lt_iff {i j : LogIndex} : logKey i < logKey j ↔ i < j := by
  have hi : i.val < 10 ^ 20 := lt_trans i.isLt (by decide)
  have hj : j.val < 10 ^ 20 := lt_trans j.isLt (by decide)
  rw [logKey, logKey, append_lt_append_iff rfl, fixedNumeral_lt_iff (by decide) (by decide) hi hj]
  simp

theorem logKey_le_iff {i j : LogIndex} : logKey i ≤ logKey j ↔ i ≤ j := by
  rw [← not_lt, logKey_lt_iff, not_lt]

theorem isPrefixOf_logKey (i : LogIndex) : logStart.isPrefixOf (logKey i) = true :=
  isPrefixOf_iff_prefix.mpr (prefix_append _ _)

theorem parseLogKey_logKey (i : LogIndex) : parseLogKey (logKey i) = some i.val := by
  rw [parseLogKey, logKey, drop_left]
  exact parseNumeral_fixedNumeral (by decide) (by decide) (by decide) (lt_trans i.isLt (by decide)) i.isLt

theorem isLogKey_of_le_of_le {a k b : List UInt8} (ha : logStart.isPrefixOf a = true)
    (hb : logStart.isPrefixOf b = true) (hak : a ≤ k) (hkb : k ≤ b) :
    logStart.isPrefixOf k = true := by
  rw [List.isPrefixOf_iff_prefix] at ha hb ⊢
  exact isPrefix_of_le_of_le ha hb hak hkb

namespace ControlLogStore
variable {L P W B : Type} {serde : LogSerde L P W B} {store : ControlLogStore B}
    {log : RaftLog L P W}
section
variable (h : store.Represents serde log)
include h

theorem Represents.entry_of_mem {row : List UInt8 × B} (hrow : row ∈ store.db.rows)
    (hkey : logStart.isPrefixOf row.1 = true) :
    ∃ entry ∈ log.entries, row.1 = logKey entry.logId.index ∧ serde.entry.fromSlice row.2 = some entry := by
  have hlog : row ∈ logRows store.db := mem_filter.mpr ⟨hrow, hkey⟩
  have hmem := mem_map_of_mem (f := fun row : List UInt8 × B => (row.1, serde.entry.fromSlice row.2)) hlog
  rw [h.rows] at hmem
  obtain ⟨entry, hentry, heq⟩ := mem_map.mp hmem
  obtain ⟨hkey', hvalue⟩ := Prod.mk.inj heq
  exact ⟨entry, hentry, hkey'.symm, hvalue.symm⟩

theorem Represents.row_of_mem {entry : LogEntry L P} (hentry : entry ∈ log.entries) :
    ∃ row ∈ logRows store.db, row.1 = logKey entry.logId.index := by
  have hmem := mem_map_of_mem (f := fun entry : LogEntry L P => (logKey entry.logId.index, some entry)) hentry
  rw [← h.rows] at hmem
  obtain ⟨row, hrow, heq⟩ := mem_map.mp hmem
  exact ⟨row, hrow, (Prod.mk.inj heq).1⟩

theorem Represents.filterMap_rows {p : List UInt8 → Bool} {q : LogIndex → Bool}
    (hpq : ∀ index, p (logKey index) = q index) :
    ((logRows store.db).filter fun row => p row.1).map (fun row => (row.1, serde.entry.fromSlice row.2)) =
      (log.entries.filter fun entry => q entry.logId.index).map fun entry => (logKey entry.logId.index, some entry) := by
  have hleft := filter_map (f := fun row : List UInt8 × B => (row.1, serde.entry.fromSlice row.2))
    (p := fun pair => p pair.1)
    (l := logRows store.db)
  have hright := filter_map (f := fun entry : LogEntry L P => (logKey entry.logId.index, some entry))
    (p := fun pair => p pair.1) (l := log.entries)
  rw [h.rows, hright] at hleft
  simp only [Function.comp_def, hpq] at hleft
  exact hleft.symm

end

/-! ### What is read -/

theorem readEntries_eq (stop : LogIndex) {rows : List (List UInt8 × B)}
    (hrows : ∀ row ∈ rows, logStart.isPrefixOf row.1 = true →
      ∃ index entry, row.1 = logKey index ∧ serde.entry.fromSlice row.2 = some entry) :
    (readEntries serde stop rows).map (List.map some) =
      some ((rows.takeWhile fun row => logStart.isPrefixOf row.1 && decide (row.1 < logKey stop)).map fun row =>
        serde.entry.fromSlice row.2) := by
  induction rows with
  | nil => rfl
  | cons row rows ih =>
    obtain ⟨hrow, hrows⟩ := forall_mem_cons.mp hrows
    rw [readEntries]
    split
    · next hkey =>
      obtain ⟨index, entry, hindex, hentry⟩ := hrow hkey
      simp only [hindex, parseLogKey_logKey, takeWhile_cons, isPrefixOf_logKey, logKey_lt_iff,
        Bool.true_and, decide_eq_true_eq,
        Fin.val_fin_le]
      by_cases hlt : index < stop
      · rw [if_neg (not_le.mpr hlt), if_pos hlt, hentry, bind_some, map_cons, hentry, Option.map_map]
        have hrest := congrArg (Option.map (some entry :: ·)) (ih hrows)
        rw [Option.map_map] at hrest
        exact hrest
      · rw [if_pos (not_lt.mp hlt), if_neg hlt]
        rfl
    · next hkey =>
      rw [takeWhile_cons_of_neg (by simp [hkey])]
      rfl

section
variable (h : store.Represents serde log)
include h

theorem Represents.tryGetLogEntries_eq (start stop : IndexBound) :
    store.tryGetLogEntries serde start stop =
      some (log.entries.filter fun entry => decide (start.start ≤ entry.logId.index) && decide (entry.logId.index < stop.stop)) := by
  have hread := @readEntries_eq _ _ _ _ serde stop.stop (store.db.seek (logKey start.start)) fun row hrow hkey => by
    obtain ⟨entry, -, hindex, hentry⟩ := h.entry_of_mem ((dropWhile_sublist _).mem hrow) hkey
    exact ⟨_, entry, hindex, hentry⟩
  have hscan := @Table.takeWhile_seek _ _ _ store.db (logKey start.start)
    (fun key => logStart.isPrefixOf key && decide (key < logKey stop.stop)) fun k k' hk hkk' hk' => by
      obtain ⟨hkey, hlt⟩ := (Bool.and_eq_true_iff).mp hk'
      refine (Bool.and_eq_true_iff).mpr ⟨isLogKey_of_le_of_le (isPrefixOf_logKey _) hkey hk hkk', ?_⟩
      exact decide_eq_true (lt_of_le_of_lt hkk' (of_decide_eq_true hlt))
  have hfilter : (store.db.rows.filter fun row => decide (logKey start.start ≤ row.1) &&
      (logStart.isPrefixOf row.1 && decide (row.1 < logKey stop.stop))) =
        (logRows store.db).filter fun row => decide (logKey start.start ≤ row.1) && decide (row.1 < logKey stop.stop) := by
    rw [logRows, List.filter_filter]
    refine filter_congr fun row _ => ?_
    rw [Bool.and_left_comm, Bool.and_comm]
  have hentries := congrArg (map Prod.snd) (h.filterMap_rows
    (p := fun key => decide (logKey start.start ≤ key) && decide (key < logKey stop.stop))
    (q := fun index => decide (start.start ≤ index) && decide (index < stop.stop)) fun index => by
      simp only [logKey_le_iff, logKey_lt_iff])
  rw [List.map_map, List.map_map] at hentries
  rw [hscan, hfilter, show (fun row : List UInt8 × B => serde.entry.fromSlice row.2) = Prod.snd ∘ fun row =>
    (row.1, serde.entry.fromSlice row.2) from rfl, hentries] at hread
  have hinj : Function.Injective (Option.map (map (some : LogEntry L P → Option (LogEntry L P)))) :=
    map_injective (map_injective_iff.mpr (some_injective _))
  exact hinj hread

omit h in
theorem range_eq (log : RaftLog L P W) {start stop : IndexBound} (h : log.Readable start stop) :
    log.range start stop =
      log.entries.filter fun entry =>
        decide (start.start ≤ entry.logId.index) && decide (entry.logId.index < stop.stop) := by
  obtain ⟨hstart, hstop⟩ := h
  refine filter_congr fun entry hentry => congrArg₂ _ ?_ ?_
  · cases start with
    | included index => rfl
    | excluded index =>
      have := hstart index rfl
      simp only [IndexBound.IsAfter, IndexBound.start, decide_eq_decide, Fin.lt_def, Fin.le_def, Fin.val_add]
      show _ ↔ (index.val + 1) % 2 ^ 64 ≤ _
      omega
    | unbounded => simp [IndexBound.IsAfter, IndexBound.start]
  · cases stop with
    | included index =>
      simp only [IndexBound.IsBefore, IndexBound.stop, decide_eq_decide, Fin.lt_def, Fin.le_def, Fin.val_add]
      show _ ↔ _ < (index.val + 1) % 2 ^ 64
      have : index.val + 1 < 2 ^ 64 := hstop
      omega
    | excluded index => rfl
    | unbounded =>
      have := hstop entry hentry
      simp only [IndexBound.IsBefore, IndexBound.stop, Fin.lt_def, Fin.val_last]
      exact (decide_eq_true (by omega)).symm

theorem Represents.getLogState_eq :
    store.getLogState serde = some (log.purged, log.lastLogId) := by
  have hlast := @getLast?_filter_eq_seekForPrev _ _ _ store.db (logKey (Fin.last (2 ^ 64 - 1)))
    (fun key => logStart.isPrefixOf key) fun a b hab hb ha => isLogKey_of_le_of_le ha (isPrefixOf_logKey _) hab hb
  have hall : ((store.db.rows.filter fun row => logStart.isPrefixOf row.1).filter fun row =>
      row.1 ≤ logKey (Fin.last (2 ^ 64 - 1))) = logRows store.db := by
    refine filter_eq_self.mpr fun row hrow => ?_
    obtain ⟨hmem, hkey⟩ := mem_filter.mp hrow
    obtain ⟨entry, -, hindex, -⟩ := h.entry_of_mem hmem hkey
    rw [hindex]
    exact decide_eq_true (logKey_le_iff.mpr (Fin.le_last _))
  rw [hall] at hlast
  have hentries := congrArg getLast? h.rows
  rw [getLast?_map, getLast?_map] at hentries
  unfold getLogState RaftLog.lastLogId
  rw [h.purged, ← hlast]
  cases hrow : (logRows store.db).getLast? with
  | none =>
    rw [hrow] at hentries
    rw [map_eq_none_iff.mp hentries.symm]
    rfl
  | some row =>
    rw [hrow] at hentries
    obtain ⟨entry, hentry, heq⟩ := map_eq_some_iff.mp hentries.symm
    rw [hentry]
    show (serde.entry.fromSlice row.2).bind _ = _
    rw [← (Prod.mk.inj heq).2]
    rfl

theorem Represents.agrees : store.Agrees serde log where
  entries start stop hread := by rw [h.tryGetLogEntries_eq, range_eq log hread]
  state := h.getLogState_eq
  vote := h.vote

/-! ### What is written -/

omit h in
theorem not_isLogKey :
    logStart.isPrefixOf voteKey = false ∧ logStart.isPrefixOf purgedKey = false ∧
      voteKey ≠ purgedKey := by decide

theorem represents_of_rows {store' : ControlLogStore B} {entries : List (LogEntry L P)}
    (hrows : ((logRows store'.db).map fun row => (row.1, serde.entry.fromSlice row.2)) =
      entries.map fun entry => (logKey entry.logId.index, some entry))
    (hother : ∀ key, logStart.isPrefixOf key = false → store'.db.find? key = store.db.find? key) :
    store'.Represents serde { log with entries := entries } where
  rows := hrows
  purged := by
    rw [lastPurged, hother _ not_isLogKey.2.1]
    exact h.purged
  vote := by
    rw [readVote, hother _ not_isLogKey.1]
    exact h.vote

theorem sorted_entries : log.entries.Pairwise fun a b => a.logId.index < b.logId.index := by
  have hsorted : ((logRows store.db).map fun row => (row.1, serde.entry.fromSlice row.2)).Pairwise fun a b => a.1 < b.1 :=
    pairwise_map.mpr (store.db.sorted.filter _)
  rw [h.rows, pairwise_map] at hsorted
  exact hsorted.imp fun hlt => logKey_lt_iff.mp hlt

omit h in
theorem logRows_putAll {db : Table (List UInt8) B} {rows : List (List UInt8 × B)}
    (hkeys : ∀ row ∈ rows, logStart.isPrefixOf row.1 = true)
    (hsorted : (logRows db ++ rows).Pairwise fun a b => a.1 < b.1) :
    logRows (db.putAll rows) = logRows db ++ rows ∧
      ∀ key, logStart.isPrefixOf key = false → (db.putAll rows).find? key = db.find? key := by
  induction rows generalizing db with
  | nil => exact ⟨(append_nil _).symm, fun _ _ => rfl⟩
  | cons row rows ih =>
    obtain ⟨hkey, hkeys⟩ := forall_mem_cons.mp hkeys
    have hlast : logRows (db.put row.1 row.2) = logRows db ++ [row] := by
      have hput := @filter_putRow _ _ _ db.rows (fun key => logStart.isPrefixOf key) row.1 row.2 db.sorted
      rw [if_pos hkey] at hput
      refine hput.trans (putRow_of_forall_lt (fun other hother => ?_) row.2)
      exact (pairwise_append.mp hsorted).2.2 other hother row mem_cons_self
    rw [append_cons] at hsorted
    obtain ⟨hrows, hother⟩ := @ih (db.put row.1 row.2) hkeys (by rw [hlast]; exact hsorted)
    refine ⟨?_, fun key hkey' => ?_⟩
    · show logRows ((db.put row.1 row.2).putAll rows) = _
      rw [hrows, hlast, append_assoc]
      rfl
    · refine (hother key hkey').trans ((db.find?_put _ _ _).trans (if_neg ?_))
      rintro rfl
      rw [hkey] at hkey'
      cases hkey'

omit h in
theorem exists_rows (hserde : serde.Keeps) (entries : List (LogEntry L P)) :
    ∃ rows, (entries.mapM fun entry => (serde.entry.toVec entry).map fun bytes => (logKey entry.logId.index, bytes)) = some rows ∧
      rows.map (fun row => (row.1, serde.entry.fromSlice row.2)) =
        entries.map fun entry => (logKey entry.logId.index, some entry) := by
  induction entries with
  | nil => exact ⟨[], rfl, rfl⟩
  | cons entry entries ih =>
    obtain ⟨rows, hrows, hread⟩ := ih
    obtain ⟨bytes, hbytes, hentry⟩ := (hserde.entry entry).exists_toVec
    exact ⟨(logKey entry.logId.index, bytes) :: rows, by simp [hbytes, hrows], by rw [map_cons, map_cons, hread, hentry]⟩

theorem index_lt_nextIndex {entry : LogEntry L P} (hentry : entry ∈ log.entries) :
    entry.logId.index.val < log.nextIndex := by
  obtain ⟨last, hlast⟩ : ∃ last, log.entries.getLast? = some last :=
    ⟨_, getLast?_eq_some_getLast (ne_nil_of_mem hentry)⟩
  have hnext : log.nextIndex = last.logId.index.val + 1 := by
    simp [RaftLog.nextIndex, RaftLog.lastLogId, hlast]
  obtain ⟨front, hfront⟩ := getLast?_eq_some_iff.mp hlast
  have hsorted := sorted_entries h
  rw [hfront] at hsorted hentry
  rw [hnext]
  rcases mem_append.mp hentry with hentry | hentry
  · have := (pairwise_append.mp hsorted).2.2 entry hentry last (mem_singleton_self last)
    have : entry.logId.index.val < last.logId.index.val := this
    omega
  · rw [mem_singleton.mp hentry]
    exact Nat.lt_succ_self _

omit h in
theorem Represents.append (hserde : serde.Keeps) (h : store.Represents serde log)
    {entries : List (LogEntry L P)} (hentries : log.Admits (.append entries)) :
    (store.step serde (.append entries)).Represents serde (log.step (.append entries)) := by
  obtain ⟨rows, hmapM, hread⟩ := exists_rows hserde entries
  have hall : (log.entries ++ entries).Pairwise fun a b => a.logId.index < b.logId.index := by
    have hnew : (entries.map fun entry => entry.logId.index.val).Pairwise (· < ·) := by
      rw [show entries.map _ = _ from hentries]
      exact pairwise_lt_range'
    rw [pairwise_map] at hnew
    refine pairwise_append.mpr ⟨sorted_entries h, hnew, fun a ha b hb => ?_⟩
    have hb' : b.logId.index.val ∈ range' log.nextIndex entries.length := hentries ▸ mem_map_of_mem hb
    exact Fin.lt_def.mpr (lt_of_lt_of_le (index_lt_nextIndex h ha) (left_le_of_mem_range' hb'))
  have hkeys : (logRows store.db ++ rows).map (fun row => (row.1, serde.entry.fromSlice row.2)) =
      (log.entries ++ entries).map fun entry => (logKey entry.logId.index, some entry) := by
    simp [h.rows, hread]
  have hsorted : (logRows store.db ++ rows).Pairwise fun a b => a.1 < b.1 := by
    have hmap : ((logRows store.db ++ rows).map fun row => (row.1, serde.entry.fromSlice row.2)).Pairwise fun a b => a.1 < b.1 := by
      rw [hkeys, pairwise_map]
      exact hall.imp fun hlt => logKey_lt_iff.mpr hlt
    rw [pairwise_map] at hmap
    exact hmap
  have hlog : ∀ row ∈ rows, logStart.isPrefixOf row.1 = true := by
    intro row hrow
    have hmem := mem_map_of_mem (f := fun row : List UInt8 × B => (row.1, serde.entry.fromSlice row.2)) hrow
    rw [hread] at hmem
    obtain ⟨entry, -, heq⟩ := mem_map.mp hmem
    rw [← (Prod.mk.inj heq).1]
    exact isPrefixOf_logKey _
  obtain ⟨hrows, hother⟩ := logRows_putAll hlog hsorted
  have hstep : store.step serde (.append entries) = ⟨store.db.putAll rows⟩ := by
    simp [step, ControlLogStore.append, hmapM]
  rw [hstep]
  exact represents_of_rows h (by rw [hrows, hkeys]) hother

theorem Represents.eraseAll {keys : List (List UInt8)} {q : LogIndex → Bool}
    (hlog : ∀ key ∈ keys, logStart.isPrefixOf key = true)
    (hkeys : ∀ entry ∈ log.entries, logKey entry.logId.index ∈ keys ↔ q entry.logId.index = false) :
    (⟨store.db.eraseAll keys⟩ : ControlLogStore B).Represents serde
      { log with entries := log.entries.filter fun entry => q entry.logId.index } := by
  refine represents_of_rows h ?_ fun key hkey => ?_
  · have hsame : logRows (store.db.eraseAll keys) = (logRows store.db).filter fun row => decide (row.1 ∉ keys) := by
      rw [logRows, logRows, Table.eraseAll, List.filter_filter, List.filter_filter]
      refine filter_congr fun row _ => ?_
      rw [Bool.and_comm]
      congr
    have hfilter : (log.entries.filter fun entry => decide (logKey entry.logId.index ∉ keys)) =
        log.entries.filter fun entry => q entry.logId.index := by
      refine filter_congr fun entry hentry => ?_
      have hkey := hkeys entry hentry
      cases hq : q entry.logId.index with
      | true => exact decide_eq_true fun hmem => Bool.noConfusion (hq.symm.trans (hkey.mp hmem))
      | false => exact decide_eq_false (not_not.mpr (hkey.mpr hq))
    rw [hsame, h.filterMap_rows (p := fun key => decide (key ∉ keys)) (q := fun index => decide (logKey index ∉ keys)) fun _ => rfl,
      hfilter]
  · rw [find?_eraseAll, if_neg]
    intro hmem
    rw [hlog key hmem] at hkey
    cases hkey

theorem Represents.truncate (logId : LogId L) :
    (store.step serde (.truncate logId)).Represents serde (log.step (.truncate logId)) := by
  have hscan := @takeWhile_seek _ _ _ store.db (logKey logId.index) (fun key => logStart.isPrefixOf key) fun k k' hk hkk' hk' =>
    isLogKey_of_le_of_le (isPrefixOf_logKey _) hk' hk hkk'
  show (⟨store.db.eraseAll _⟩ : ControlLogStore B).Represents serde _
  rw [hscan]
  refine h.eraseAll (q := fun index => decide (index < logId.index)) (fun key hkey => ?_) fun entry hentry => ?_
  · obtain ⟨row, hrow, rfl⟩ := mem_map.mp hkey
    exact ((and_eq_true_iff).mp (mem_filter.mp hrow).2).2
  · rw [decide_eq_false_iff_not, not_lt, ← logKey_le_iff, List.mem_map]
    constructor
    · rintro ⟨row, hrow, hkey⟩
      rw [← hkey]
      exact of_decide_eq_true ((and_eq_true_iff).mp (mem_filter.mp hrow).2).1
    · intro hle
      obtain ⟨row, hrow, hkey⟩ := h.row_of_mem hentry
      obtain ⟨hrow, hlog⟩ := mem_filter.mp hrow
      rw [← hkey] at hle
      exact ⟨row, mem_filter.mpr ⟨hrow, (and_eq_true_iff).mpr ⟨decide_eq_true hle, hlog⟩⟩, hkey⟩

end

theorem logRows_put {db : Table (List UInt8) B} {key : List UInt8} {bytes : B}
    (hkey : logStart.isPrefixOf key = false) :
    logRows (db.put key bytes) = logRows db := by
  have hput := @filter_putRow _ _ _ _ (fun key => logStart.isPrefixOf key) key bytes db.sorted
  rwa [hkey] at hput

theorem exists_purgedKeys (index : LogIndex) {rows : List (List UInt8 × B)}
    (hsorted : rows.Pairwise fun a b => a.1 < b.1)
    (hrows : ∀ row ∈ rows, logStart.isPrefixOf row.1 = true → ∃ index, row.1 = logKey index) :
    ∃ keys, purgedKeys index rows = some keys ∧ ∀ key, key ∈ keys ↔
    key ∈ rows.map Prod.fst ∧ logStart.isPrefixOf key = true ∧ key ≤ logKey index := by
  induction rows with
  | nil => exact ⟨[], rfl, by simp⟩
  | cons row rows ih =>
    obtain ⟨hfirst, hsorted⟩ := pairwise_cons.mp hsorted
    obtain ⟨hrow, hrows⟩ := forall_mem_cons.mp hrows
    obtain ⟨keys, hkeys, hmem⟩ := ih hsorted hrows
    rw [purgedKeys, hkeys]
    split
    · next hlog =>
      obtain ⟨other, hother⟩ := hrow hlog
      simp only [hother, parseLogKey_logKey, Fin.val_fin_lt]
      split
      · next hlt =>
        refine ⟨[], rfl, fun key => iff_of_false not_mem_nil ?_⟩
        rintro ⟨hin, -, hle⟩
        have habove : row.1 ≤ key := by
          rcases mem_cons.mp hin with rfl | hin
          · exact le_rfl
          · obtain ⟨row', hrow', rfl⟩ := mem_map.mp hin
            exact (hfirst row' hrow').le
        rw [hother] at habove
        exact absurd (habove.trans hle) (not_le.mpr (logKey_lt_iff.mpr hlt))
      · next hle =>
        refine ⟨_, rfl, fun key => ?_⟩
        rw [mem_cons, hmem, map_cons, mem_cons, hother]
        constructor
        · rintro (rfl | ⟨hin, hrest⟩)
          · exact ⟨.inl rfl, isPrefixOf_logKey _, logKey_le_iff.mpr (not_lt.mp hle)⟩
          · exact ⟨.inr hin, hrest⟩
        · rintro ⟨hin | hin, hrest⟩
          · exact .inl hin
          · exact .inr ⟨hin, hrest⟩
    · next hlog =>
      refine ⟨keys, rfl, fun key => ?_⟩
      rw [hmem, map_cons, mem_cons]
      constructor
      · rintro ⟨hin, hrest⟩
        exact ⟨.inr hin, hrest⟩
      · rintro ⟨rfl | hin, hrest⟩
        · exact absurd hrest.1 hlog
        · exact ⟨hin, hrest⟩

section
variable (hserde : serde.Keeps) (h : store.Represents serde log)
include hserde h

theorem Represents.purge {logId : LogId L} (hlogId : log.Admits (.purge logId)) :
    (store.step serde (.purge logId)).Represents serde (log.step (.purge logId)) := by
  obtain ⟨keys, hkeys, hmem⟩ := exists_purgedKeys logId.index store.db.sorted fun row hrow hlog => by
    obtain ⟨entry, -, hkey, -⟩ := h.entry_of_mem hrow hlog
    exact ⟨_, hkey⟩
  obtain ⟨bytes, hbytes, hpurged⟩ := (hserde.purged (some logId)).exists_toVec
  have herased := h.eraseAll (q := fun index => decide (logId.index < index)) (fun key hkey => ((hmem key).mp hkey).2.1)
    fun entry hentry => by
      rw [hmem, decide_eq_false_iff_not, not_lt, logKey_le_iff]
      refine ⟨fun hall => hall.2.2, fun hle => ⟨?_, isPrefixOf_logKey _, hle⟩⟩
      obtain ⟨row, hrow, hkey⟩ := h.row_of_mem hentry
      rw [← hkey]
      exact mem_map_of_mem (mem_filter.mp hrow).1
  have hstep : store.step serde (.purge logId) = ⟨(store.db.eraseAll keys).put purgedKey bytes⟩ := by
    simp [step, ControlLogStore.purge, hkeys, hbytes]
  -- An earlier purge went no further, so the place of this one is the new one.
  have hplace : (if log.purged.any fun purged => logId.index ≤ purged.index then log.purged else some logId) = some logId := by
    cases hpurged : log.purged with
    | none => rfl
    | some purged =>
      rw [any_some]
      rcases hlogId purged hpurged with hlt | rfl
      · rw [if_neg fun hle => absurd (of_decide_eq_true hle) (not_le.mpr hlt)]
      · simp
  rw [hstep]
  refine ⟨?_, ?_, ?_⟩
  · rw [logRows_put not_isLogKey.2.1]
    exact herased.rows
  · simp only [lastPurged, find?_put, if_true, RaftLog.step, hplace]
    exact hpurged
  · simp only [readVote, find?_put, if_neg not_isLogKey.2.2]
    exact herased.vote

theorem Represents.saveVote (vote : W) :
    (store.step serde (.saveVote vote)).Represents serde (log.step (.saveVote vote)) := by
  obtain ⟨bytes, hbytes, hvote⟩ := (hserde.vote vote).exists_toVec
  have hstep : store.step serde (.saveVote vote) = ⟨store.db.put voteKey bytes⟩ := by
    simp [step, ControlLogStore.saveVote, hbytes]
  rw [hstep]
  refine ⟨?_, ?_, ?_⟩
  · rw [logRows_put not_isLogKey.1]
    exact h.rows
  · simp only [lastPurged, find?_put, if_neg not_isLogKey.2.2.symm]
    exact h.purged
  · simp [readVote, find?_put, hvote, RaftLog.step]

theorem Represents.step (call : LogCall L P W) (hcall : log.Admits call) :
    (store.step serde call).Represents serde (log.step call) := by
  cases call with
  | append entries => exact h.append hserde hcall
  | truncate logId => exact h.truncate logId
  | purge logId => exact h.purge hserde hcall
  | saveVote vote => exact h.saveVote hserde vote
  | reopen => exact h

end

/-- **The store refines a log.** After every run of contiguous appends, truncations, purges that go
on, votes and restarts, it says what the log says, for all ranges whose bounds can be counted up. -/
theorem agrees_run (hserde : serde.Keeps) {calls : List (LogCall L P W)}
    (hcalls : Along RaftLog.step RaftLog.Admits ⟨none, [], none⟩ calls) :
    (run (step serde) ⟨.empty⟩ calls).Agrees serde (run RaftLog.step ⟨none, [], none⟩ calls) := by
  have hnew : (⟨.empty⟩ : ControlLogStore B).Represents serde ⟨none, [], none⟩ := ⟨rfl, rfl, rfl⟩
  refine Represents.agrees ?_
  generalize (⟨.empty⟩ : ControlLogStore B) = store at hnew ⊢
  generalize (⟨none, [], none⟩ : RaftLog L P W) = log at hnew hcalls ⊢
  induction calls generalizing store log with
  | nil => exact hnew
  | cons call calls ih => exact ih _ _ (hnew.step hserde call hcalls.1) hcalls.2

/-! Rows that hold the values themselves. -/

inductive PlainValue
  | entry (entry : LogEntry Unit Unit)
  | vote (vote : Nat)
  | purged (purged : Option (LogId Unit))

def plainLog : LogSerde Unit Unit Nat PlainValue where
  entry := ⟨fun entry => some (.entry entry), fun | .entry entry => some entry | _ => none⟩
  vote := ⟨fun vote => some (.vote vote), fun | .vote vote => some vote | _ => none⟩
  purged := ⟨fun purged => some (.purged purged), fun | .purged purged => some purged | _ => none⟩

theorem keeps_plainLog : plainLog.Keeps := ⟨fun _ => rfl, fun _ => rfl, fun _ => rfl⟩

def entryAt (index : LogIndex) : LogEntry Unit Unit := ⟨⟨(), index⟩, ()⟩

theorem agrees_append_purge :
    (run (step plainLog) ⟨.empty⟩ [.append [entryAt 0, entryAt 1], .saveVote 3, .purge ⟨(), 0⟩, .reopen, .append [entryAt 2]]).Agrees
      plainLog (run RaftLog.step ⟨none, [], none⟩ [.append [entryAt 0, entryAt 1], .saveVote 3, .purge ⟨(), 0⟩, .reopen,
        .append [entryAt 2]]) :=
  agrees_run keeps_plainLog ⟨rfl, trivial, fun _ hnone => (nomatch hnone), trivial, rfl, trivial⟩

/-- The range up to the last index of all is empty, and a purge up to an earlier place takes the
place back. -/
theorem range_to_last_index_empty :
    ((run (step plainLog) ⟨.empty⟩ [.append [entryAt 0]]).tryGetLogEntries plainLog .unbounded
        (.included (Fin.last (2 ^ 64 - 1)))).map List.length = some 0 ∧
      ((run RaftLog.step ⟨none, [], (none : Option Nat)⟩ [.append [entryAt 0]]).range .unbounded
        (.included (Fin.last (2 ^ 64 - 1)))).length = 1 ∧
      (run (step plainLog) ⟨.empty⟩ [.append [entryAt 0, entryAt 1], .purge ⟨(), 1⟩, .purge ⟨(), 0⟩]).lastPurged plainLog =
        some (some ⟨(), 0⟩) ∧
      (run RaftLog.step ⟨none, [], (none : Option Nat)⟩ [.append [entryAt 0, entryAt 1], .purge ⟨(), 1⟩, .purge ⟨(), 0⟩]).purged =
        some ⟨(), 1⟩ := by
  decide +kernel

end ControlLogStore
end Nexora.Control
