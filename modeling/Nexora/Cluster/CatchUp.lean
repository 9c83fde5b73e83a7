import Nexora.Cluster.ReplicationLog
import Mathlib.Data.List.Chain

/-!
# What a replica is sent when it catches up

A log answers a replica with the entries behind its number, if the earliest entry that is left is
not beyond the next number. Numbers missing between the entries are not noticed. When each entry
follows the one before it, the answer has no gap.
-/

namespace Nexora.Cluster
open Lib List Option Nat
variable {Op : Type}

/-! ### Numbers that follow each other -/

/-- The entries are numbered one after the other up to the highest number, in the arithmetic of the
code. -/
structure ShardLog.Chained (maxEntries : Nat) (log : ShardLog Op) : Prop where
  chain : log.entries.IsChain fun a b => b.1 = a.1 + 1
  last : ∀ entry ∈ log.entries.getLast?, entry.1 = log.highWater
  empty : log.entries = [] → log.highWater = 0
  length_le : log.entries.length ≤ maxEntries

namespace ShardLog
variable {maxEntries : Nat} {log : ShardLog Op}

theorem chained_new : (new : ShardLog Op).Chained maxEntries :=
  ⟨isChain_nil, fun _ hentry => absurd hentry (not_mem_none _), fun _ => rfl, zero_le _⟩

theorem getLast?_push (hpos : 0 < maxEntries) (seq : ReplicationSeq) (op : Op) :
    (log.push maxEntries seq op).entries.getLast? = some (seq, op) := by
  rw [push, getLast?_drop, getLast?_concat, if_neg]
  rw [length_append, length_singleton]
  omega

theorem length_push_le (seq : ReplicationSeq) (op : Op) :
    (log.push maxEntries seq op).entries.length ≤ maxEntries := by
  rw [push, length_drop]
  omega

theorem Chained.push (h : log.Chained maxEntries) (hpos : 0 < maxEntries) {seq : ReplicationSeq}
    (hseq : seq = log.highWater + 1 ∨ log.entries = [] ∨ maxEntries = 1) (op : Op) :
    (log.push maxEntries seq op).Chained maxEntries where
  chain := by
    rcases hseq with rfl | hempty | hone
    · refine List.IsChain.drop (h.chain.append (isChain_singleton _) fun a ha b hb => ?_) _
      cases hb
      rw [h.last a ha]
    · rw [ShardLog.push, hempty]
      exact (isChain_singleton _).drop _
    · subst hone
      have hdrop : (log.push 1 seq op).entries = [(seq, op)] := by
        simp [push]
      rw [hdrop]
      exact isChain_singleton _
  last := by
    intro entry hentry
    rw [getLast?_push hpos] at hentry
    cases hentry
    rfl
  empty := by
    intro hempty
    have hlast := @getLast?_push _ _ log hpos seq op
    rw [hempty] at hlast
    cases hlast
  length_le := length_push_le seq op

variable {rest : List (ReplicationSeq × Op)} {first : ReplicationSeq × Op}

theorem map_val_of_isChain (h : (first :: rest).IsChain fun a b => b.1 = a.1 + 1) :
    ((first :: rest).map fun entry => entry.1.val) =
      (List.range' first.1.val (rest.length + 1)).map (· % 2 ^ 64) := by
  induction rest generalizing first with
  | nil =>
    show [first.1.val] = [first.1.val % 2 ^ 64]
    rw [mod_eq_of_lt first.1.isLt]
  | cons second rest ih =>
    obtain ⟨hnext, hrest⟩ := isChain_cons_cons.mp h
    have hval : second.1.val = (first.1.val + 1) % 2 ^ 64 := by
      rw [hnext, Fin.val_add]
      rfl
    rw [map_cons, ih hrest, length_cons, @List.range'_succ first.1.val (rest.length + 1) 1, map_cons,
      mod_eq_of_lt first.1.isLt, hval]
    congr 1
    apply ext_getElem
    · simp
    · intro i hi hi'
      simp only [getElem_map, getElem_range']
      omega

theorem Chained.map_val (h : log.Chained maxEntries) (hlt : maxEntries < 2 ^ 64)
    (hentries : log.entries = first :: rest) (hle : first.1 ≤ log.highWater) :
    (log.entries.map fun entry => entry.1.val) = List.range' first.1.val (rest.length + 1) ∧
      log.highWater.val = first.1.val + rest.length := by
  have hvals := map_val_of_isChain (hentries ▸ h.chain)
  rw [← hentries] at hvals
  have hlength : rest.length + 1 ≤ maxEntries := by
    have := h.length_le
    rwa [hentries] at this
  have hlast : log.highWater.val = (first.1.val + rest.length) % 2 ^ 64 := by
    obtain ⟨entry, hentry⟩ : ∃ entry, log.entries.getLast? = some entry := by
      rw [hentries]
      exact ⟨_, getLast?_eq_some_getLast (cons_ne_nil _ _)⟩
    have hmap : (log.entries.map fun entry => entry.1.val).getLast? = some log.highWater.val := by
      simp [hentry, h.last entry hentry]
    rw [hvals, getLast?_map, range'_concat, getLast?_concat, map_some] at hmap
    rw [← some.inj hmap, one_mul]
  have hfirst : first.1.val ≤ log.highWater.val := hle
  have hlt' := first.1.isLt
  have hsum : first.1.val + rest.length < 2 ^ 64 := by omega
  refine ⟨?_, hlast.trans (mod_eq_of_lt hsum)⟩
  rw [hvals]
  refine map_congr_left (fun n hn => ?_) |>.trans (map_id _)
  obtain ⟨i, hi, rfl⟩ := mem_range'.mp hn
  exact mod_eq_of_lt (by omega)

theorem filter_lt_range' {first count k : Nat} (hle : first ≤ k + 1) (hlt : k + 1 ≤ first + count) :
    (List.range' first count).filter (fun n => k < n) = List.range' (k + 1)
    (first + count - (k + 1)) := by
  have hsorted : ∀ start len, (range' start len).Pairwise (· < ·) := fun _ _ => pairwise_lt_range'
  refine ((hsorted first count).filter _).eq_of_mem_iff (hsorted _ _) fun n => ?_
  simp only [mem_filter, mem_range'_1, decide_eq_true_eq]
  omega

theorem filter_lt_suffix {entries : List (ReplicationSeq × Op)}
    (h : entries.Pairwise fun a b => a.1.val < b.1.val) (fromSeq : ReplicationSeq) :
    (entries.filter fun entry => fromSeq < entry.1) <:+ entries := by
  have hdrop : (entries.dropWhile fun entry => decide (entry.1 ≤ fromSeq)) =
      entries.filter fun entry => fromSeq < entry.1 := by
    rw [dropWhile_eq_filter]
    · refine filter_congr fun entry _ => ?_
      simp [← decide_not]
    · refine h.imp fun {a b} hab hb => decide_eq_true ?_
      have hb := Fin.le_def.mp (of_decide_eq_true hb)
      rw [Fin.le_def]
      omega
  rw [← hdrop]
  exact dropWhile_suffix _

theorem Chained.filter_lt (h : log.Chained maxEntries) (hlt : maxEntries < 2 ^ 64)
    (hentries : log.entries = first :: rest) {fromSeq : ReplicationSeq}
    (hfrom : fromSeq < log.highWater) (hle : first.1.val ≤ fromSeq.val + 1) :
    ((log.entries.filter fun entry => fromSeq < entry.1).map fun entry => entry.1.val) =
        List.range' (fromSeq.val + 1) (log.highWater.val - fromSeq.val) ∧
      (log.entries.filter fun entry => fromSeq < entry.1) <:+ log.entries := by
  have hfrom' : fromSeq.val < log.highWater.val := hfrom
  obtain ⟨hvals, hhigh⟩ := h.map_val hlt hentries (by rw [Fin.le_def]; omega)
  constructor
  · have hmap : ((log.entries.filter fun entry => fromSeq < entry.1).map fun entry => entry.1.val) =
        (log.entries.map fun entry => entry.1.val).filter fun n => fromSeq.val < n := by
      rw [List.filter_map]
      rfl
    have hcount : first.1.val + (rest.length + 1) - (fromSeq.val + 1) = log.highWater.val - fromSeq.val := by omega
    rw [hmap, hvals, filter_lt_range' hle (by omega), hcount]
  · refine filter_lt_suffix (pairwise_map.mp ?_) fromSeq
    rw [hvals]
    exact pairwise_lt_range'

end ShardLog

/-! ### Runs of calls -/

namespace ShardReplicationLog

def step (log : ShardReplicationLog Op) (call : LogCall Op) : ShardReplicationLog Op :=
  (log.record call).1

/-- The call leaves no gap in the log of the shard: a number that is taken is the next one, or the
log has no entry or keeps only one. -/
def LeavesNoGap (shard : ShardId) (log : ShardReplicationLog Op) : LogCall Op → Prop
  | .recordOwner _ _ => True
  | .recordReplica shard' seq _ =>
    shard' = shard →
      seq.val ≤ (log.highWater shard).val + 1 ∨ (log.shardLog shard).entries = [] ∨ log.maxEntries = 1

def recorded (shard : ShardId) :
    ShardReplicationLog Op → List (LogCall Op) → List (ReplicationSeq × Op)
  | _, [] => []
  | log, call :: calls =>
    (if call.shard = shard then ((log.shardLog shard).accepts call).toList else []) ++ recorded shard (log.step call) calls

variable {log : ShardReplicationLog Op} {shard : ShardId}

theorem chained_step (h : (log.shardLog shard).Chained log.maxEntries) {call : LogCall Op}
    (hcall : log.LeavesNoGap shard call) :
    ((log.step call).shardLog shard).Chained (log.step call).maxEntries := by
  rw [step, maxEntries_record, shardLog_record]
  split
  · next heq =>
    cases call with
    | recordOwner shard' op => exact h.push log.maxEntries_pos (.inl rfl) op
    | recordReplica shard' seq op =>
      unfold ShardLog.accepts
      by_cases hseq : (log.shardLog shard).highWater < seq
      · simp only [hseq, if_true, elim_some]
        refine h.push log.maxEntries_pos ((hcall heq).imp_left fun hle => ?_) op
        have hlt := Fin.lt_def.mp hseq
        have hnext := le_antisymm hle hlt
        apply Fin.ext
        rw [hnext, Fin.val_add]
        exact (mod_eq_of_lt (hnext ▸ seq.isLt)).symm
      · simp only [hseq, if_false, elim_none]
        exact h
  · exact h

theorem entries_run_suffix (log : ShardReplicationLog Op) (shard : ShardId)
    (calls : List (LogCall Op)) :
    ((run step log calls).shardLog shard).entries <:+ (log.shardLog shard).entries ++ recorded shard log calls := by
  induction calls generalizing log with
  | nil =>
    show (log.shardLog shard).entries <:+ (log.shardLog shard).entries ++ []
    exact (append_nil _).symm ▸ suffix_rfl
  | cons call calls ih =>
    have hstep : ((log.step call).shardLog shard).entries <:+ (log.shardLog shard).entries ++
        (if call.shard = shard then ((log.shardLog shard).accepts call).toList else []) := by
      rw [step, shardLog_record]
      by_cases heq : call.shard = shard
      · simp only [heq, if_true]
        cases (log.shardLog shard).accepts call with
        | none => simp
        | some entry => exact drop_suffix _ _
      · simp [heq]
    rw [run_cons, recorded, ← append_assoc]
    obtain ⟨front, hfront⟩ := hstep
    refine (ih (log.step call)).trans ?_
    rw [← hfront, append_assoc]
    exact suffix_append _ _

theorem since_eq_incremental {fromSeq : ReplicationSeq} {delta : List (ReplicationSeq × Op)}
    (h : log.since shard fromSeq = .incremental delta) :
    fromSeq < (log.shardLog shard).highWater ∧
      (∀ first ∈ (log.shardLog shard).entries.head?, first.1.val ≤ fromSeq.val + 1) ∧
      delta = (log.shardLog shard).entries.filter fun entry => fromSeq < entry.1 := by
  unfold since at h
  cases hfind : log.inner.find? shard with
  | none =>
    rw [hfind] at h
    cases h
  | some found =>
    have hshard : log.shardLog shard = found := by rw [shardLog, hfind, getD_some]
    rw [hfind] at h
    dsimp only at h
    split_ifs at h with hhigh hearly
    cases h
    have hlt := not_le.mp hhigh
    refine ⟨hshard ▸ hlt, fun first hfirst => ?_, by rw [hshard]⟩
    rw [hshard] at hfirst
    rw [hfirst, map_some, getD_some] at hearly
    have hnext : (fromSeq + 1).val = fromSeq.val + 1 := by
      rw [Fin.val_add]
      exact mod_eq_of_lt (by have := Fin.lt_def.mp hlt; have := found.highWater.isLt; simp; omega)
    exact hnext ▸ Fin.le_def.mp (not_lt.mp hearly)

/-- **Catching up without a gap.** When no call leaves a gap in the log of the shard, an answer with
entries has exactly the numbers behind the one asked for, up to the highest, and they are the last
entries that were recorded. -/
theorem since_of_along (hempty : log.inner = .empty) {calls : List (LogCall Op)}
    (h : Along step (LeavesNoGap shard) log calls) {fromSeq : ReplicationSeq}
    {delta : List (ReplicationSeq × Op)}
    (hsince : (run step log calls).since shard fromSeq = .incremental delta) :
    (delta.map fun entry => entry.1.val) =
        List.range' (fromSeq.val + 1) (((run step log calls).highWater shard).val - fromSeq.val) ∧
      delta <:+ recorded shard log calls := by
  have hnew : log.shardLog shard = .new := by rw [shardLog, hempty]; rfl
  have hchained := @run_invariant _ _ step (LeavesNoGap shard) (fun log => (log.shardLog shard).Chained log.maxEntries)
    (fun log call hlog hcall => chained_step hlog hcall) log (hnew ▸ ShardLog.chained_new) calls h
  obtain ⟨hlt, hfirst, rfl⟩ := since_eq_incremental hsince
  cases hentries : ((run step log calls).shardLog shard).entries with
  | nil =>
    rw [hchained.empty hentries] at hlt
    exact absurd hlt (Fin.not_lt_zero _)
  | cons first rest =>
    have hle := hfirst first (by rw [hentries]; rfl)
    obtain ⟨hvals, hsuffix⟩ := hchained.filter_lt (run step log calls).maxEntries_lt hentries hlt hle
    rw [← hentries]
    refine ⟨hvals, hsuffix.trans ?_⟩
    have hrun := entries_run_suffix log shard calls
    rwa [hnew] at hrun

/-- The owner's first write, recorded there, and the second one, received from a new owner. -/
theorem since_two_entries :
    [(1, "a"), (2, "b")] <:+ recorded 0 (new 10) [.recordOwner 0 "a", .recordReplica 0 2 "b"] := by
  have hcalls : Along step (LeavesNoGap 0) (new 10) [.recordOwner 0 "a", .recordReplica 0 2 "b"] :=
    ⟨trivial, fun _ => .inl (by decide), trivial⟩
  have hsince : (run step (new 10) [.recordOwner 0 "a", .recordReplica 0 2 "b"]).since 0 0 =
      .incremental [(1, "a"), (2, "b")] := by decide
  exact (since_of_along rfl hcalls hsince).2

/-- **A gap is passed on.** A replica that receives the first and the third write answers one that
has nothing with these two, as if they were all: the second is not among them, and the highest
number is three. -/
theorem since_over_gap :
    (run step (new 10) [.recordReplica 0 1 "a", .recordReplica 0 3 "c"]).since 0 0 = .incremental [(1, "a"), (3, "c")] ∧
      (run step (new 10) [.recordReplica 0 1 "a", .recordReplica 0 3 "c"]).highWater 0 = 3 := by
  constructor <;> decide

end ShardReplicationLog
end Nexora.Cluster
