import Nexora.Cluster.ReplicationLog
import Mathlib.Data.List.TakeWhile

/-!
# Opening a durable replication log again

A durable log keeps entries in memory, by their count, and rows in a store, by their numbers. The
rows are written after the lock has been released, in any order. Where a number runs ahead by as
much as the window has room for, the row of an entry that is still kept is deleted.
-/

namespace Nexora.Cluster
open Lib List Option ShardReplicationLog ShardLog Table Nat
variable {Op : Type}

/-! ### Keys -/

theorem splitOnce_shardPrefix (shard : ShardId) (rest : List UInt8) :
    splitOnce 0x3A (shardPrefix shard ++ rest) = some (numeral 10 shard.val, rest) := by
  have hcolon : (0x3A : UInt8) ∉ numeral 10 shard.val :=
    not_mem_fixedNumeral (by decide) (by decide) (.inr (by decide)) _ _
  rw [shardPrefix, append_assoc]
  exact splitOnce_append hcolon rest

theorem parseSeq_fixedNumeral (seq : ReplicationSeq) :
    parseSeq (fixedNumeral 16 16 seq.val) = some seq := by
  have hwidth : seq.val < 16 ^ 16 := seq.isLt
  rw [parseSeq, parseNumeral_fixedNumeral (by decide) (by decide) (by decide) hwidth seq.isLt]
  exact congrArg some (Fin.ext (mod_eq_of_lt seq.isLt))

theorem parseLogKey_logKey (shard : ShardId) (seq : ReplicationSeq) :
    parseLogKey (logKey shard seq) = some (shard, seq) := by
  have hshard : Fin.ofNat (2 ^ 64) shard.val = shard := Fin.ext (mod_eq_of_lt shard.isLt)
  simp only [parseLogKey, logKey, splitOnce_shardPrefix, parseNumeral_numeral (by decide : 1 < 10) (by decide) shard.isLt,
    parseSeq_fixedNumeral, bind_eq_bind, bind_some, hshard]

variable {shard shard' : ShardId} {seq : ReplicationSeq}

theorem logKey_inj {seq' : ReplicationSeq} (h : logKey shard seq = logKey shard' seq') :
    shard = shard' ∧ seq = seq' := by
  have hparse := congrArg parseLogKey h
  rw [parseLogKey_logKey, parseLogKey_logKey] at hparse
  exact Prod.mk.inj (some.inj hparse)

theorem shardPrefix_isPrefix_iff : shardPrefix shard <+: logKey shard' seq ↔ shard = shard' := by
  constructor
  · rintro ⟨rest, hrest⟩
    have hsplit := splitOnce_shardPrefix shard' (fixedNumeral 16 16 seq.val)
    rw [← logKey, ← hrest, splitOnce_shardPrefix] at hsplit
    have hnumeral := (Prod.mk.inj (some.inj hsplit)).1
    have hparse := congrArg (parseNumeral 10 (2 ^ 64)) hnumeral
    rw [parseNumeral_numeral (by decide) (by decide) shard.isLt, parseNumeral_numeral (by decide) (by decide) shard'.isLt]
      at hparse
    exact Fin.ext (some.inj hparse)
  · rintro rfl
    exact prefix_append _ _

/-! ### The window in memory -/

/-- The entries rise up to the highest number, and none is as far below it as the window reaches. -/
structure ShardLog.Windowed (maxEntries : Nat) (log : ShardLog Op) : Prop where
  sorted : log.entries.Pairwise fun a b => a.1 < b.1
  last : ∀ entry ∈ log.entries.getLast?, entry.1 = log.highWater
  le_highWater : ∀ entry ∈ log.entries, entry.1 ≤ log.highWater
  empty : log.entries = [] → log.highWater = 0
  length_le : log.entries.length ≤ maxEntries
  room : ∀ entry ∈ log.entries, log.highWater.val < entry.1.val + maxEntries

/-- An entry that is kept, or that has made room for a full window behind it. -/
def ShardLog.Settled (maxEntries : Nat) (log : ShardLog Op) (entry : ReplicationSeq × Op) : Prop :=
  entry ∈ log.entries ∨ log.entries.length = maxEntries ∧ ∀ kept ∈ log.entries, entry.1 < kept.1

namespace ShardLog
variable {maxEntries : Nat} {log : ShardLog Op} {seq : ReplicationSeq}

theorem windowed_new : (new : ShardLog Op).Windowed maxEntries where
  sorted := Pairwise.nil
  last _ hentry := absurd hentry (not_mem_none _)
  le_highWater _ hentry := absurd hentry not_mem_nil
  empty _ := rfl
  length_le := zero_le _
  room _ hentry := absurd hentry not_mem_nil

theorem Windowed.sorted_append (h : log.Windowed maxEntries) (hseq : log.highWater < seq)
    (op : Op) :
    (log.entries ++ [(seq, op)]).Pairwise fun a b => a.1 < b.1 := by
  refine pairwise_append.mpr ⟨h.sorted, pairwise_singleton _ _, fun a ha b hb => ?_⟩
  cases mem_singleton.mp hb
  exact lt_of_le_of_lt (h.le_highWater a ha) hseq

theorem entries_push (log : ShardLog Op) (hpos : 0 < maxEntries) (seq : ReplicationSeq) (op : Op) :
    (log.push maxEntries seq op).entries = log.entries.drop (log.entries.length + 1 - maxEntries) ++ [(seq, op)] := by
  rw [push, length_append, length_singleton, drop_append_of_le_length (by omega)]

theorem Windowed.push (h : log.Windowed maxEntries) (hpos : 0 < maxEntries)
    (hseq : log.highWater < seq)
    (hroom : ∀ entry ∈ log.entries.drop (log.entries.length + 1 - maxEntries), seq.val < entry.1.val + maxEntries)
    (op : Op) : (log.push maxEntries seq op).Windowed maxEntries := by
  have hdrop := log.entries_push hpos seq op
  refine ⟨(h.sorted_append hseq op).sublist (drop_sublist _ _), ?_, ?_, ?_, ?_, ?_⟩
  · intro entry hentry
    rw [hdrop, getLast?_concat] at hentry
    cases hentry
    rfl
  · intro entry hentry
    rw [hdrop, mem_append, mem_singleton] at hentry
    rcases hentry with hentry | rfl
    · exact (lt_of_le_of_lt (h.le_highWater entry (mem_of_mem_drop hentry)) hseq).le
    · exact le_refl _
  · intro hempty
    rw [hdrop] at hempty
    exact absurd hempty (append_ne_nil_of_right_ne_nil _ (cons_ne_nil _ _))
  · rw [hdrop, length_append, length_drop, length_singleton]
    omega
  · intro entry hentry
    rw [hdrop, mem_append, mem_singleton] at hentry
    rcases hentry with hentry | rfl
    · exact hroom entry hentry
    · exact Nat.lt_add_of_pos_right hpos

variable {entry : ReplicationSeq × Op}

theorem Settled.push (hentry : log.Settled maxEntries entry) (h : log.Windowed maxEntries)
    (hpos : 0 < maxEntries) (hseq : log.highWater < seq) (op : Op) :
    (log.push maxEntries seq op).Settled maxEntries entry := by
  have hsorted := h.sorted_append hseq op
  have hsplit := take_append_drop ((log.entries ++ [(seq, op)]).length - maxEntries) (log.entries ++ [(seq, op)])
  rcases hentry with hmem | ⟨hfull, hbelow⟩
  · have hall : entry ∈ log.entries ++ [(seq, op)] := mem_append_left _ hmem
    rw [← hsplit, mem_append] at hall
    rcases hall with htake | hkept
    · refine .inr ⟨?_, fun kept hkept => ?_⟩
      · have hne : (log.entries ++ [(seq, op)]).length - maxEntries ≠ 0 := by
          intro hzero
          rw [hzero] at htake
          exact absurd htake not_mem_nil
        rw [ShardLog.push, length_drop]
        omega
      · rw [← hsplit] at hsorted
        exact (pairwise_append.mp hsorted).2.2 entry htake kept hkept
    · exact .inl hkept
  · refine .inr ⟨?_, fun kept hkept => ?_⟩
    · rw [ShardLog.push, length_drop, length_append]
      omega
    · rcases mem_append.mp (mem_of_mem_drop hkept) with hold | hnew
      · exact hbelow kept hold
      · rw [mem_singleton.mp hnew]
        obtain ⟨first, hfirst⟩ := exists_mem_of_length_pos (hfull ▸ hpos)
        exact lt_trans (lt_of_lt_of_le (hbelow first hfirst) (h.le_highWater first hfirst)) hseq

theorem Windowed.eq_of_settled (h : log.Windowed maxEntries) {kept : ReplicationSeq × Op}
    (hentry : log.Settled maxEntries entry) (hkept : kept ∈ log.entries) (heq : entry.1 = kept.1) :
    entry = kept := by
  rcases hentry with hmem | ⟨-, hbelow⟩
  · exact Prod.ext heq (value_eq_of_mem (t := ⟨log.entries, h.sorted⟩) (heq ▸ hmem : (kept.1, entry.2) ∈ _) hkept)
  · exact absurd heq (hbelow kept hkept).ne

end ShardLog

/-! ### Reading the rows of a shard -/

theorem foldl_max_of_pairwise {entries : List (ReplicationSeq × Op)} {last : ReplicationSeq × Op}
    {start : ReplicationSeq} (hle : ∀ entry ∈ entries, entry.1 ≤ last.1) (hstart : start ≤ last.1)
    (hlast : entries.getLast? = some last) :
    entries.foldl (fun highWater entry => max highWater entry.1) start = last.1 := by
  induction entries generalizing start with
  | nil => cases hlast
  | cons first rest ih =>
    obtain ⟨hfirst, hrest⟩ := forall_mem_cons.mp hle
    cases rest with
    | nil =>
      cases hlast
      exact max_eq_right hstart
    | cons second rest => exact ih hrest (max_le hstart hfirst) (by rwa [getLast?_cons_cons] at hlast)

variable {maxEntries : Nat} {log : ShardLog Op}

theorem ShardLog.Windowed.foldl_max (h : log.Windowed maxEntries) :
    log.entries.foldl (fun highWater entry => max highWater entry.1) 0 = log.highWater := by
  cases hlast : log.entries.getLast? with
  | none =>
    have hempty := getLast?_eq_none_iff.mp hlast
    rw [hempty, h.empty hempty]
    rfl
  | some last =>
    have heq := h.last last hlast
    rw [foldl_max_of_pairwise (fun entry hentry => heq ▸ h.le_highWater entry hentry) (Fin.zero_le _) hlast, heq]

/-- **What is read from the rows** of a shard is what memory holds, when the rows are those of its
entries and perhaps of some that have made room. -/
theorem replay_eq (h : log.Windowed maxEntries) {stored : List (ReplicationSeq × Op)}
    (hdistinct : stored.Pairwise fun a b => a.1 ≠ b.1)
    (hsettled : ∀ entry ∈ stored, log.Settled maxEntries entry)
    (hheld : ∀ entry ∈ log.entries, entry ∈ stored) :
    replay maxEntries stored = log := by
  let sorted := stored.insertionSort fun a b => a.1 ≤ b.1
  have hperm : sorted.Perm stored := perm_insertionSort _ _
  have hsorted := ((pairwise_insertionSort _ stored).and ((hperm.pairwise_iff Ne.symm).mpr hdistinct)).imp
      fun hab => lt_of_le_of_ne hab.1 hab.2
  -- The rows of entries that have made room stand before those of the entries.
  classical
  let gone := sorted.filter fun entry => entry ∉ log.entries
  have hgone : ∀ entry ∈ gone, entry ∉ log.entries ∧ entry ∈ stored := by
    intro entry hentry
    obtain ⟨hmem, hnot⟩ := mem_filter.mp hentry
    exact ⟨of_decide_eq_true hnot, hperm.mem_iff.mp hmem⟩
  have hbelow : ∀ entry ∈ gone, log.entries.length = maxEntries ∧ ∀ kept ∈ log.entries,
      entry.1 < kept.1 := by
    intro entry hentry
    obtain ⟨hnot, hmem⟩ := hgone entry hentry
    exact (hsettled entry hmem).resolve_left hnot
  have hsplit : sorted = gone ++ log.entries := by
    refine rows_ext hsorted ?_ fun entry => ?_
    · exact pairwise_append.mpr ⟨hsorted.filter _, h.sorted, fun a ha b hb => (hbelow a ha).2 b hb⟩
    · rw [mem_append, mem_filter]
      by_cases hmem : entry ∈ log.entries
      · exact iff_of_true (hperm.mem_iff.mpr (hheld entry hmem)) (.inr hmem)
      · simp [hmem]
  have htail : sorted.drop (sorted.length - maxEntries) = log.entries := by
    rw [hsplit, length_append]
    cases hnil : gone with
    | nil =>
      rw [nil_append, length_nil, Nat.zero_add, Nat.sub_eq_zero_of_le h.length_le, drop_zero]
    | cons entry rest =>
      have hfull := (hbelow entry (hnil ▸ mem_cons_self)).1
      simp [hfull]
  show mk (sorted.drop (sorted.length - maxEntries))
    ((sorted.drop (sorted.length - maxEntries)).foldl (fun highWater entry => max highWater entry.1) 0) = log
  rw [htail, h.foldl_max]

namespace ShardReplicationLog
variable {json : OpJson Op} {db : Table (List UInt8) (List UInt8)} {shard : ShardId}

def stored (json : OpJson Op) (db : Table (List UInt8) (List UInt8)) (shard : ShardId) :
    List (ReplicationSeq × Op) :=
  ((db.rows.filterMap (parseRow json)).filter fun row => row.1 = shard).map Prod.snd

theorem replay_nil (maxEntries : Nat) :
    replay maxEntries ([] : List (ReplicationSeq × Op)) = .new := by
  simp [replay, ShardLog.new]

theorem shardLog_openDurable (maxEntries : Fin (2 ^ 64)) :
    (openDurable json db maxEntries).shardLog shard = replay (max maxEntries.val 1)
    (stored json db shard) := by
  rw [stored, ← Table.find?_gather, shardLog, openDurable, Table.find?_map]
  cases (gather (db.rows.filterMap (parseRow json))).find? shard with
  | none => rw [getD_none, replay_nil]; rfl
  | some entries => rfl

theorem parseRow_of_keeps {seq : ReplicationSeq} {op : Op} (h : json.Keeps op) :
    parseRow json (logKey shard seq, json.value op) = some (shard, seq, op) := by
  have hvalue : json.fromSlice (json.value op) = some op := h
  simp [parseRow, parseLogKey_logKey, hvalue]

theorem mem_stored_iff {entry : ReplicationSeq × Op} :
    entry ∈ stored json db shard ↔ ∃ row ∈ db.rows, parseRow json row = some (shard, entry) := by
  constructor
  · intro hentry
    obtain ⟨found, hfound, rfl⟩ := mem_map.mp hentry
    obtain ⟨hmem, heq⟩ := mem_filter.mp hfound
    obtain ⟨row, hrow, hparse⟩ := mem_filterMap.mp hmem
    exact ⟨row, hrow, by rw [hparse, ← of_decide_eq_true heq]⟩
  · rintro ⟨row, hrow, hparse⟩
    refine mem_map.mpr ⟨(shard, entry), mem_filter.mpr ⟨?_, decide_eq_true rfl⟩, rfl⟩
    exact mem_filterMap.mpr ⟨row, hrow, hparse⟩

/-! ### Writing a row -/

theorem logKey_notMem_staleKeys {shard' : ShardId} {seq : ReplicationSeq} {cutoff : Nat}
    (h : shard' = shard → cutoff < seq.val) : logKey shard' seq ∉ staleKeys db shard cutoff := by
  intro hmem
  obtain ⟨row, hrow, hkey⟩ := mem_map.mp hmem
  obtain ⟨hscan, hstale⟩ := mem_filter.mp hrow
  have hahead := mem_takeWhile_imp hscan
  rw [hkey, isPrefixOf_iff_prefix, shardPrefix_isPrefix_iff] at hahead
  rw [hkey, logKey, splitOnce_shardPrefix, bind_some, parseSeq_fixedNumeral, any_some,
    decide_eq_true_eq] at hstale
  have := h hahead.symm
  omega

theorem persist_rows {log : ShardReplicationLog Op} (hdb : log.db = some db) (call : PersistCall Op)
    {disk : DiskOutcome} (hput : disk.put = true) :
    ∃ db', (log.persist json call disk).db = some db' ∧
      (∀ row ∈ db'.rows, row = (logKey call.shard call.seq, json.value call.op) ∨ row ∈ db.rows) ∧
      ∀ shard' seq value,
        (shard' = call.shard → call.highWater.val < seq.val + log.maxEntries) →
        (logKey shard' seq, value) = (logKey call.shard call.seq, json.value call.op) ∨
          (logKey shard' seq, value) ∈ db.rows ∧ logKey shard' seq ≠ logKey call.shard call.seq →
        (logKey shard' seq, value) ∈ db'.rows := by
  unfold persist
  rw [hdb]
  simp only [hput, if_true]
  split
  · next hfull =>
    refine ⟨_, rfl, fun row hrow => ?_, fun shard' seq value hwindow hrow => ?_⟩
    · exact mem_of_mem_putRow (mem_eraseAll_iff.mp hrow).1
    · refine mem_eraseAll_iff.mpr ⟨(mem_putRow_iff db.sorted).mpr hrow, fun hmem => ?_⟩
      refine logKey_notMem_staleKeys (fun heq => ?_) (mem_filter.mp hmem).1
      have := hwindow heq
      omega
  · refine ⟨_, rfl, fun row hrow => mem_of_mem_putRow hrow, fun shard' seq value _ hrow => ?_⟩
    exact (mem_putRow_iff db.sorted).mpr hrow

end ShardReplicationLog

/-! ### Memory and store -/

/-- The store and the writes that are due hold every entry that memory holds, and nothing else but
entries that have made room. -/
structure Held (json : OpJson Op) (maxEntries : Nat) (logs : ShardId → ShardLog Op)
    (db : Table (List UInt8) (List UInt8))
    (due : List (PersistCall Op)) : Prop where
  windowed : ∀ shard, (logs shard).Windowed maxEntries
  keeps : ∀ shard, ∀ entry ∈ (logs shard).entries, json.Keeps entry.2
  due_le : ∀ call ∈ due, call.highWater = call.seq ∧ call.seq ≤ (logs call.shard).highWater
  due_settled : ∀ call ∈ due, json.Keeps call.op ∧ (logs call.shard).Settled maxEntries (call.seq, call.op)
  rows : ∀ row ∈ db.rows, ∃ shard entry, row = (logKey shard entry.1, json.value entry.2) ∧
    json.Keeps entry.2 ∧
    (logs shard).Settled maxEntries entry
  held : ∀ shard, ∀ entry ∈ (logs shard).entries, (logKey shard entry.1, json.value entry.2) ∈ db.rows ∨
    ∃ call ∈ due, call.shard = shard ∧ (call.seq, call.op) = entry

namespace Held
variable {json : OpJson Op} {maxEntries : Nat} {logs logs' : ShardId → ShardLog Op}
  {db : Table (List UInt8) (List UInt8)} {due : List (PersistCall Op)}

theorem replay_stored (h : Held json maxEntries logs db []) (shard : ShardId) :
    replay maxEntries (stored json db shard) = logs shard := by
  have hparse : ∀ row ∈ db.rows, ∃ shard entry, row = (logKey shard entry.1, json.value entry.2) ∧
      parseRow json row = some (shard, entry) ∧ (logs shard).Settled maxEntries entry := by
    intro row hrow
    obtain ⟨shard, entry, rfl, hkeeps, hsettled⟩ := h.rows row hrow
    exact ⟨shard, entry, rfl, parseRow_of_keeps hkeeps, hsettled⟩
  refine replay_eq (h.windowed shard) ?_ ?_ ?_
  · -- Two rows of one shard and one number would have one key.
    have hrows : (db.rows.filterMap (parseRow json)).Pairwise
        fun a b => a.1 = b.1 → a.2.1 ≠ b.2.1 := by
      refine pairwise_filterMap.mpr (db.sorted.imp_of_mem fun {a b} ha hb hlt x hx y hy hshard hseq => ?_)
      obtain ⟨shard, entry, rfl, hentry, -⟩ := hparse a ha
      obtain ⟨shard', entry', rfl, hentry', -⟩ := hparse b hb
      obtain rfl := some.inj (hentry.symm.trans hx)
      obtain rfl := some.inj (hentry'.symm.trans hy)
      dsimp only at hshard hseq
      rw [hshard, hseq] at hlt
      exact lt_irrefl _ hlt
    refine pairwise_map.mpr ((hrows.filter _).imp_of_mem fun {a b} ha hb hne => hne ?_)
    rw [of_decide_eq_true (mem_filter.mp ha).2, of_decide_eq_true (mem_filter.mp hb).2]
  · intro entry hentry
    obtain ⟨row, hrow, hentry⟩ := mem_stored_iff.mp hentry
    obtain ⟨shard', entry', -, hentry', hsettled⟩ := hparse row hrow
    obtain ⟨rfl, rfl⟩ := Prod.mk.inj (some.inj (hentry'.symm.trans hentry))
    exact hsettled
  · intro entry hentry
    rcases h.held shard entry hentry with hrow | ⟨call, hcall, -⟩
    · exact mem_stored_iff.mpr
        ⟨_, hrow, parseRow_of_keeps (h.keeps shard entry hentry)⟩
    · exact absurd hcall not_mem_nil

theorem push (h : Held json maxEntries logs db due) (hpos : 0 < maxEntries) {shard : ShardId}
    {seq : ReplicationSeq} {op : Op}
    (hself : logs' shard = (logs shard).push maxEntries seq op)
    (hother : ∀ other ≠ shard, logs' other = logs other)
    (hseq : (logs shard).highWater < seq) (hkeeps : json.Keeps op)
    (hroom : ∀ entry ∈ (logs shard).entries.drop ((logs shard).entries.length + 1 - maxEntries),
      seq.val < entry.1.val + maxEntries) :
    Held json maxEntries logs' db (due ++ [⟨shard, seq, op, seq⟩]) := by
  have hsettled : ∀ other entry, (logs other).Settled maxEntries entry → (logs' other).Settled maxEntries entry := by
    intro other entry hentry
    by_cases heq : other = shard
    · subst heq
      rw [hself]
      exact hentry.push (h.windowed other) hpos hseq op
    · rwa [hother other heq]
  have hnew : (seq, op) ∈ (logs' shard).entries := by
    rw [hself, entries_push _ hpos]
    exact mem_append_right _ (mem_singleton_self _)
  have hmem : ∀ other, ∀ entry ∈ (logs' other).entries, entry ∈ (logs other).entries ∨
      other = shard ∧ entry = (seq, op) := by
    intro other entry hentry
    by_cases heq : other = shard
    · subst heq
      rw [hself, entries_push _ hpos, mem_append, mem_singleton] at hentry
      exact hentry.imp mem_of_mem_drop fun hentry => ⟨rfl, hentry⟩
    · exact .inl (hother other heq ▸ hentry)
  refine ⟨fun other => ?_, fun other entry hentry => ?_, fun call hcall => ?_, fun call hcall => ?_, fun row hrow => ?_,
    fun other entry hentry => ?_⟩
  · by_cases heq : other = shard
    · subst heq
      rw [hself]
      exact (h.windowed other).push hpos hseq hroom op
    · rw [hother other heq]
      exact h.windowed other
  · rcases hmem other entry hentry with hold | ⟨-, rfl⟩
    · exact h.keeps other entry hold
    · exact hkeeps
  · rcases mem_append.mp hcall with hold | hcall
    · refine ⟨(h.due_le call hold).1, ?_⟩
      by_cases heq : call.shard = shard
      · rw [heq, hself]
        exact (lt_of_le_of_lt (heq ▸ (h.due_le call hold).2) hseq).le
      · rw [hother _ heq]
        exact (h.due_le call hold).2
    · rw [mem_singleton.mp hcall]
      exact ⟨rfl, by rw [hself]; exact le_refl _⟩
  · rcases mem_append.mp hcall with hold | hcall
    · exact ⟨(h.due_settled call hold).1, hsettled _ _ (h.due_settled call hold).2⟩
    · rw [mem_singleton.mp hcall]
      exact ⟨hkeeps, .inl hnew⟩
  · obtain ⟨other, entry, heq, hentry, hold⟩ := h.rows row hrow
    exact ⟨other, entry, heq, hentry, hsettled _ _ hold⟩
  · rcases hmem other entry hentry with hold | ⟨rfl, rfl⟩
    · refine (h.held other entry hold).imp_right fun ⟨call, hcall, heq⟩ => ⟨call, mem_append_left _ hcall, heq⟩
    · exact .inr ⟨_, mem_append_right _ (mem_singleton_self _), rfl, rfl⟩

theorem persist {log : ShardReplicationLog Op} (h : Held json log.maxEntries log.shardLog db due)
    (hdb : log.db = some db) {i : Nat} {call : PersistCall Op} (hcall : due[i]? = some call)
    {disk : DiskOutcome} (hput : disk.put = true) :
    ∃ db', (log.persist json call disk).db = some db' ∧ Held json log.maxEntries log.shardLog db' (due.eraseIdx i) := by
  have hmem := mem_of_getElem? hcall
  obtain ⟨hhigh, hle⟩ := h.due_le call hmem
  obtain ⟨hkeeps, hsettled⟩ := h.due_settled call hmem
  obtain ⟨db', hdb', hrows, hheld⟩ := @persist_rows Op json db log hdb call disk hput
  refine ⟨db', hdb', h.windowed, h.keeps, fun other hother => h.due_le other (mem_of_mem_eraseIdx hother),
    fun other hother => h.due_settled other (mem_of_mem_eraseIdx hother), fun row hrow => ?_,
    fun shard entry hentry => ?_⟩
  · rcases hrows row hrow with rfl | hrow
    · exact ⟨call.shard, (call.seq, call.op), rfl, hkeeps, hsettled⟩
    · exact h.rows row hrow
  · -- An entry that memory holds is within the window, so that its row is not deleted.
    have hwindow : shard = call.shard → call.highWater.val < entry.1.val + log.maxEntries := by
      rintro rfl
      have hroom := (h.windowed call.shard).room entry hentry
      rw [hhigh]
      exact lt_of_le_of_lt hle hroom
    by_cases hself : shard = call.shard ∧ entry.1 = call.seq
    · obtain ⟨rfl, hseq⟩ := hself
      have heq := (h.windowed call.shard).eq_of_settled hsettled hentry hseq.symm
      refine .inl (hheld _ _ _ hwindow (.inl ?_))
      rw [← heq]
    · rcases h.held shard entry hentry with hrow | ⟨other, hother, heq⟩
      · refine .inl (hheld _ _ _ hwindow (.inr ⟨hrow, fun hkey => hself ?_⟩))
        exact logKey_inj hkey
      · refine .inr ⟨other, ?_, heq⟩
        obtain ⟨rfl, rfl⟩ := heq
        rw [eq_take_append_cons_drop hcall, mem_append, mem_cons] at hother
        rw [eraseIdx_eq_take_drop_succ, mem_append]
        rcases hother with hother | rfl | hother
        · exact .inl hother
        · exact absurd ⟨rfl, rfl⟩ hself
        · exact .inr hother

end Held

/-! ### Runs -/

/-- A durable log, and the calls that have released the lock and not yet written to the store. -/
structure DurableLog (Op : Type) where
  log : ShardReplicationLog Op
  due : List (PersistCall Op)

inductive DurableStep (Op : Type) where
  | record (call : LogCall Op)
  | persist (i : Nat) (disk : DiskOutcome)
  | restart

namespace DurableLog

def reopened (json : OpJson Op) (s : DurableLog Op) : ShardReplicationLog Op :=
  s.log.db.elim s.log fun db => .openDurable json db ⟨s.log.maxEntries, s.log.maxEntries_lt⟩

def step (json : OpJson Op) (s : DurableLog Op) : DurableStep Op → DurableLog Op
  | .record call => ⟨(s.log.record call).1, s.due ++ (s.log.record call).2.toList⟩
  | .persist i disk => s.due[i]?.elim s fun call => ⟨s.log.persist json call disk, s.due.eraseIdx i⟩
  | .restart => ⟨s.reopened json, []⟩

def start (json : OpJson Op) (maxEntries : Fin (2 ^ 64)) : DurableLog Op :=
  ⟨.openDurable json .empty maxEntries, []⟩

/-- An entry that a call appends has a number above all others and can be read back, and its number
does not run ahead of an entry that stays by as many as there may be; a write succeeds; the log is
closed when no write is due. -/
def StaysWithin (json : OpJson Op) (s : DurableLog Op) : DurableStep Op → Prop
  | .record call =>
    let old := s.log.shardLog call.shard
    ∀ new ∈ old.accepts call, old.highWater < new.1 ∧ json.Keeps new.2 ∧
      ∀ entry ∈ old.entries.drop (old.entries.length + 1 - s.log.maxEntries), new.1.val < entry.1.val + s.log.maxEntries
  | .persist _ disk => disk.put = true
  | .restart => s.due = []

def ownerNumbers (json : OpJson Op) (shard : ShardId) :
    DurableLog Op → List (DurableStep Op) → List ReplicationSeq
  | _, [] => []
  | s, label :: labels =>
    (match label with
      | .record (.recordOwner shard' op) => if shard' = shard then [(s.log.recordOwner shard' op).2.seq] else []
      | _ => []) ++ ownerNumbers json shard (s.step json label) labels

def Inv (json : OpJson Op) (s : DurableLog Op) : Prop :=
  ∃ db, s.log.db = some db ∧ Held json s.log.maxEntries s.log.shardLog db s.due

variable {json : OpJson Op} {s : DurableLog Op}

theorem inv_start (json : OpJson Op) (maxEntries : Fin (2 ^ 64)) :
    Inv json (start json maxEntries) := by
  refine ⟨.empty, rfl, fun _ => windowed_new, fun _ _ hentry => ?_, fun _ hcall => ?_, fun _ hcall => ?_,
    fun _ hrow => ?_, fun _ _ hentry => ?_⟩
  · exact absurd hentry not_mem_nil
  · exact absurd hcall not_mem_nil
  · exact absurd hcall not_mem_nil
  · exact absurd hrow not_mem_nil
  · exact absurd hentry not_mem_nil

theorem Inv.shardLog_reopened (h : Inv json s) (hdue : s.due = []) (shard : ShardId) :
    (s.reopened json).shardLog shard = s.log.shardLog shard := by
  obtain ⟨db, hdb, hheld⟩ := h
  rw [hdue] at hheld
  have hmax : max s.log.maxEntries 1 = s.log.maxEntries := max_eq_left s.log.maxEntries_pos
  rw [reopened, hdb, elim_some, shardLog_openDurable]
  rw [hmax]
  exact hheld.replay_stored shard

theorem Inv.reopened (h : Inv json s) (hdue : s.due = []) : Inv json ⟨s.reopened json, []⟩ := by
  have hshard : (s.reopened json).shardLog = s.log.shardLog := funext (h.shardLog_reopened hdue)
  obtain ⟨db, hdb, hheld⟩ := h
  have hmax : (s.reopened json).maxEntries = s.log.maxEntries := by
    rw [DurableLog.reopened, hdb]
    exact max_eq_left s.log.maxEntries_pos
  refine ⟨db, by rw [DurableLog.reopened, hdb]; rfl, ?_⟩
  rw [hshard, hmax, ← hdue]
  exact hheld

theorem step_persist {i : Nat} {due : Option (PersistCall Op)} (hdue : s.due[i]? = due)
    (disk : DiskOutcome) :
    s.step json (.persist i disk) = due.elim s fun call => ⟨s.log.persist json call disk, s.due.eraseIdx i⟩ := by
  rw [← hdue]
  rfl

variable {label : DurableStep Op}

theorem Inv.step (h : Inv json s) (hlabel : StaysWithin json s label) :
    Inv json (s.step json label) := by
  cases label with
  | record call =>
    obtain ⟨db, hdb, hheld⟩ := h
    refine ⟨db, (s.log.db_record call).trans hdb, ?_⟩
    show Held json (s.log.record call).1.maxEntries (s.log.record call).1.shardLog db
      (s.due ++ (s.log.record call).2.toList)
    rw [maxEntries_record, snd_record]
    cases haccepts : (s.log.shardLog call.shard).accepts call with
    | none =>
      have hsame : (s.log.record call).1.shardLog = s.log.shardLog := by
        funext shard
        rw [shardLog_record]
        split
        · next heq =>
          rw [← heq, haccepts]
          rfl
        · rfl
      rw [hsame, map_none, toList_none, append_nil]
      exact hheld
    | some new =>
      obtain ⟨hseq, hkeeps, hroom⟩ := hlabel new haccepts
      refine hheld.push s.log.maxEntries_pos ?_ (fun other hother => ?_) hseq hkeeps hroom
      · rw [shardLog_record, if_pos rfl, haccepts]
        rfl
      · rw [shardLog_record, if_neg (Ne.symm hother)]
  | persist i disk =>
    cases hcall : s.due[i]? with
    | none =>
      rw [step_persist hcall]
      exact h
    | some call =>
      rw [step_persist hcall]
      obtain ⟨db, hdb, hheld⟩ := h
      obtain ⟨db', hdb', hheld'⟩ := hheld.persist hdb hcall hlabel
      refine ⟨db', hdb', ?_⟩
      show Held json (s.log.persist json call disk).maxEntries (s.log.persist json call disk).shardLog db' _
      rw [maxEntries_persist, funext (shardLog_persist s.log json call disk)]
      exact hheld'
  | restart => exact h.reopened hlabel

theorem highWater_le_step (h : Inv json s) (hlabel : StaysWithin json s label) (shard : ShardId) :
    s.log.highWater shard ≤ (s.step json label).log.highWater shard := by
  cases label with
  | record call =>
    show (s.log.shardLog shard).highWater ≤ ((s.log.record call).1.shardLog shard).highWater
    rw [shardLog_record]
    split
    · next heq =>
      subst heq
      cases haccepts : (s.log.shardLog call.shard).accepts call with
      | none => exact le_refl _
      | some new => exact (hlabel new haccepts).1.le
    · exact le_refl _
  | persist i disk =>
    cases hcall : s.due[i]? with
    | none =>
      rw [step_persist hcall]
      exact le_refl _
    | some call =>
      rw [step_persist hcall]
      show _ ≤ ((s.log.persist json call disk).shardLog shard).highWater
      rw [shardLog_persist]
      exact le_refl _
  | restart =>
    show _ ≤ ((s.reopened json).shardLog shard).highWater
    rw [h.shardLog_reopened hlabel]
    exact le_refl _

theorem ownerNumbers_of_along (h : Inv json s) {labels : List (DurableStep Op)}
    (hlabels : Along (step json) (StaysWithin json) s labels) (shard : ShardId) :
    (ownerNumbers json shard s labels).Pairwise (· < ·) ∧
      ∀ seq ∈ ownerNumbers json shard s labels, s.log.highWater shard < seq := by
  induction labels generalizing s with
  | nil => exact ⟨Pairwise.nil, fun _ hseq => absurd hseq not_mem_nil⟩
  | cons label labels ih =>
    obtain ⟨hlabel, hlabels⟩ := hlabels
    obtain ⟨hsorted, habove⟩ := ih (h.step hlabel) hlabels
    have hstep := highWater_le_step h hlabel shard
    have hkeep : (ownerNumbers json shard (s.step json label) labels).Pairwise (· < ·) ∧
        ∀ seq ∈ ownerNumbers json shard (s.step json label) labels, s.log.highWater shard < seq :=
      ⟨hsorted, fun seq hseq => lt_of_le_of_lt hstep (habove seq hseq)⟩
    rcases label with ⟨_ | _⟩ | _ | _
    · next shard' op =>
      by_cases heq : shard' = shard
      · subst heq
        simp only [ownerNumbers]
        have hnew := (hlabel _ rfl).1
        have hhigh : ((s.step json (.record (.recordOwner shard' op))).log.highWater shard') =
            (s.log.recordOwner shard' op).2.seq := by
          show ((s.log.record (.recordOwner shard' op)).1.shardLog shard').highWater = _
          rw [shardLog_record, if_pos (show (LogCall.recordOwner shard' op).shard = shard' from rfl)]
          rfl
        rw [hhigh] at habove
        exact ⟨pairwise_cons.mpr ⟨habove, hsorted⟩, forall_mem_cons.mpr ⟨hnew, hkeep.2⟩⟩
      · simp only [ownerNumbers, heq]
        exact hkeep
    · exact hkeep
    · exact hkeep
    · exact hkeep

/-- **Opening a log again.** In every run that stays within the window, whatever the order in which
the writes reach the store and whichever deletes fail, a log that is opened again when no write is
due holds for every shard the highest number and the entries that it held before; and in the whole
run, restarts included, the owner of a shard gives no number twice. -/
theorem reopened_of_along (json : OpJson Op) (maxEntries : Fin (2 ^ 64))
    {labels : List (DurableStep Op)}
    (h : Along (step json) (StaysWithin json) (start json maxEntries) labels) :
    ((run (step json) (start json maxEntries) labels).due = [] → ∀ shard,
      ((run (step json) (start json maxEntries) labels).reopened json).shardLog shard =
        (run (step json) (start json maxEntries) labels).log.shardLog shard) ∧
      ∀ shard, (ownerNumbers json shard (start json maxEntries) labels).Nodup := by
  have hinv := @run_invariant _ _ (step json) (StaysWithin json) (Inv json) (fun s label hs hlabel => Inv.step hs hlabel) _
    (inv_start json maxEntries) labels h
  refine ⟨hinv.shardLog_reopened, fun shard => ?_⟩
  exact (ownerNumbers_of_along (inv_start json maxEntries) h shard).1.imp fun hlt => hlt.ne

def byteJson : OpJson UInt8 := ⟨fun op => some [op], head?⟩

/-- Two calls whose writes reach the store in the other order, a restart, and the next write of the
owner. -/
def outOfOrder : List (DurableStep UInt8) :=
  [.record (.recordOwner 7 10), .record (.recordOwner 7 20), .persist 1 ⟨true, fun _ => true⟩,
    .persist 0 ⟨true, fun _ => false⟩, .restart, .record (.recordOwner 7 30)]

theorem reopened_after_restart : (ownerNumbers byteJson 7 (start byteJson 2) outOfOrder).Nodup := by
  have hnext : ∀ s : DurableLog UInt8, ∀ op, (s.log.shardLog 7).highWater.val + 1 < 2 ^ 64 →
      (((s.log.shardLog 7).entries.drop ((s.log.shardLog 7).entries.length + 1 - s.log.maxEntries)).all fun entry =>
        ((s.log.shardLog 7).highWater + 1).val < entry.1.val + s.log.maxEntries) = true →
      StaysWithin byteJson s (.record (.recordOwner 7 op)) := by
    intro s op hlast hroom new hnew
    cases hnew
    refine ⟨?_, rfl, fun entry hentry => of_decide_eq_true (all_eq_true.mp hroom entry hentry)⟩
    rw [Fin.lt_def]
    exact lt_of_lt_of_eq (lt_succ_self _) (mod_eq_of_lt hlast).symm
  have hsteps : Along (step byteJson) (StaysWithin byteJson) (start byteJson 2) outOfOrder :=
    ⟨hnext _ _ (by decide) (by decide), hnext _ _ (by decide) (by decide), rfl, rfl, rfl,
      hnext _ _ (by decide) (by decide), trivial⟩
  exact (reopened_of_along byteJson 2 hsteps).2 7

/-- **An entry that the store has lost.** A log that keeps two entries is sent the first write and
then the fifth. Memory keeps both; the store keeps what is above the third, and a log opened again
has only the fifth. -/
theorem reopened_after_gap :
    let s := run (step byteJson) (start byteJson 2)
      [.record (.recordReplica 7 1 10), .persist 0 ⟨true, fun _ => true⟩, .record (.recordReplica 7 5 50),
        .persist 0 ⟨true, fun _ => true⟩]
    s.due.length = 0 ∧ s.log.shardLog 7 = ⟨[(1, 10), (5, 50)], 5⟩ ∧ (s.reopened byteJson).shardLog 7 = ⟨[(5, 50)], 5⟩ := by
  refine ⟨rfl, ?_, ?_⟩ <;> decide

end DurableLog
end Nexora.Cluster
