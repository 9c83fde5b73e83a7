import Nexora.Cluster.ReplicaWriter

/-!
# The commit index and what a majority has acknowledged

The commit index is what a majority of the replicas with an entry has reached. A follower has an
entry only after its first acknowledgement, unless the shard was initialised, and an entry keeps the
highest number acknowledged.
-/

namespace Nexora.Cluster
open Lib List ShardProgress ReplicationProgress Option Finset Table Nat

def ReplicaSet.Majority (set : ReplicaSet) (P : NodeName → Prop) : Prop :=
  ∃ nodes : Finset NodeName, (∀ node ∈ nodes, node ∈ set.allNodes ∧ P node) ∧ set.totalNodes / 2 + 1 ≤ nodes.card

def ShardProgress.replicas (p : ShardProgress) : Finset NodeName := p.replicaProgress.keys

namespace ReplicaWriter

def start (replicaSets : Nat → Option ReplicaSet) (writeConcern : WriteConcern) (logged : Bool)
    (inits : Option (List (Nat × List NodeName))) : ReplicaWriter where
  replicaSets := replicaSets
  writeConcern := writeConcern
  replicationLog := if logged then some fun _ => 0 else none
  progress := inits.map fun inits => inits.foldl (fun progress init => progress.initShard init.1 init.2) .empty
  taken := ∅

def shardProgress (w : ReplicaWriter) (shard : Nat) : ShardProgress :=
  (w.progress.map (·.entry shard)).getD (.new shard)

def commitIndex (w : ReplicaWriter) (shard : Nat) : Nat :=
  (w.progress.bind (·.getCommitIndex shard)).getD 0

/-- The owner has acknowledged its own writes, a follower those that it has taken. -/
def Acknowledged (w : ReplicaWriter) (set : ReplicaSet) (shard : Nat) (node : NodeName)
    (seq : Nat) : Prop :=
  if node = set.owner then 0 < seq ∧ seq ≤ w.highWater shard else (shard, node, seq) ∈ w.taken

/-- A follower that has acknowledged a write with a higher number counts as well. -/
def Reached (w : ReplicaWriter) (set : ReplicaSet) (shard : Nat) (node : NodeName) (seq : Nat) :
    Prop :=
  ∃ later, seq ≤ later ∧ w.Acknowledged set shard node later

/-- When an acknowledgement is recorded, so many replicas have an entry that a majority of them,
with the owner, is one of the replica set. -/
def TracksEnough (set : ReplicaSet) (shard : Nat) (w : ReplicaWriter) : ReplicationStep → Prop
  | .ack shard' node _ => shard' = shard → set.totalNodes / 2 ≤ (insert node (w.shardProgress shard).replicas).card / 2 + 1
  | _ => True

/-- A follower whose acknowledgement is recorded has taken all earlier writes. -/
def InOrder (shard : Nat) (w : ReplicaWriter) : ReplicationStep → Prop
  | .ack shard' node seq => shard' = shard → ∀ seq', 0 < seq' → seq' < seq → (shard, node, seq') ∈ w.taken
  | _ => True

/-! ### What a step changes -/

variable {w : ReplicaWriter} {shard : Nat} {set : ReplicaSet}

theorem commitIndex_eq (w : ReplicaWriter) (shard : Nat) :
    w.commitIndex shard = (w.shardProgress shard).commitIndex := by
  unfold commitIndex shardProgress
  cases w.progress with
  | none => rfl
  | some progress =>
    show ((progress.find? shard).map ShardProgress.commitIndex).getD 0 = (progress.entry shard).commitIndex
    unfold entry
    cases progress.find? shard <;> rfl

theorem entry_put (progress : ReplicationProgress) (shard' : Nat) (p : ShardProgress)
    (shard : Nat) :
    entry (progress.put shard' p) shard = if shard = shard' then p else progress.entry shard := by
  rw [entry, find?_put]
  split <;> rfl

section
variable (w : ReplicaWriter)

theorem shardProgress_step (shard : Nat) (label : ReplicationStep) :
    (((w.step label).shardProgress shard).replicaProgress = (w.shardProgress shard).replicaProgress ∧
      ((w.step label).shardProgress shard).commitIndex = (w.shardProgress shard).commitIndex) ∨
    ∃ node seq, label = .ack shard node seq ∧ (shard, node, seq) ∈ w.taken ∧
      (w.step label).shardProgress shard = (w.shardProgress shard).recordAck node seq := by
  cases label with
  | owner shard' =>
    left
    rw [step, recordOwner]
    split
    · cases hprogress : w.progress with
      | none => simp only [shardProgress, hprogress, map_none, and_self]
      | some progress =>
        simp only [shardProgress, hprogress, map_some, getD_some, ReplicationProgress.recordWrite, entry_put]
        split
        · next heq => rw [heq]; exact ⟨rfl, rfl⟩
        · exact ⟨rfl, rfl⟩
    · exact ⟨rfl, rfl⟩
  | follower shard' node seq =>
    left
    rw [step]
    split <;> exact ⟨rfl, rfl⟩
  | ack shard' node seq =>
    rw [step]
    split
    · next htaken =>
      cases hprogress : w.progress with
      | none => exact .inl (by simp only [shardProgress, hprogress, map_none, and_self])
      | some progress =>
        simp only [shardProgress, hprogress, map_some, getD_some, ReplicationProgress.recordAck, entry_put]
        split
        · next heq =>
          subst heq
          exact .inr ⟨node, seq, rfl, htaken, rfl⟩
        · exact .inl ⟨rfl, rfl⟩
    · exact .inl ⟨rfl, rfl⟩

theorem replicaSets_step (label : ReplicationStep) :
    (w.step label).replicaSets = w.replicaSets := by
  cases label with
  | owner shard => rw [step, recordOwner]; split <;> rfl
  | follower | ack => rw [step]; split <;> rfl

theorem highWater_step (shard : Nat) (label : ReplicationStep) :
    w.highWater shard ≤ (w.step label).highWater shard ∧ (w.step label).highWater shard ≤ w.highWater shard + 1 := by
  cases label with
  | owner shard' =>
    rw [step, recordOwner]
    split
    · next highWater hlog =>
      simp only [ReplicaWriter.highWater, hlog, elim_some, Function.update_apply]
      split
      · next heq => rw [heq]; exact ⟨le_succ _, le_rfl⟩
      · exact ⟨le_rfl, le_succ _⟩
    · exact ⟨le_rfl, le_succ _⟩
  | follower | ack => rw [step]; split <;> exact ⟨le_rfl, le_succ _⟩

/-- Each step gives out at most one number, so that a `u64` numbers the writes of every run that is
not longer than it. What is acknowledged and committed stays below (`Inv`). -/
theorem highWater_run_le (shard : Nat) (labels : List ReplicationStep) :
    (run step w labels).highWater shard ≤ w.highWater shard + labels.length :=
  run_le_add_length (·.highWater shard) (fun w label => (highWater_step w shard label).2) w labels

theorem taken_step (label : ReplicationStep) : (w.step label).taken = w.taken ∨
    ∃ shard node seq, node ∈ w.followers shard ∧ 0 < seq ∧ seq ≤ w.highWater shard ∧
      (w.step label).taken = insert (shard, node, seq) w.taken := by
  cases label with
  | owner shard => exact .inl taken_recordOwner
  | follower shard node seq =>
    rw [step]
    split
    · next h => exact .inr ⟨shard, node, seq, h.1, h.2.1, h.2.2, rfl⟩
    · exact .inl rfl
  | ack shard node seq => rw [step]; split <;> exact .inl rfl

theorem taken_subset_step (label : ReplicationStep) : w.taken ⊆ (w.step label).taken := by
  rcases taken_step w label with heq | ⟨shard, node, seq, -, -, -, heq⟩
  · rw [heq]
  · rw [heq]
    exact subset_insert _ _

/-! ### The commit index -/

theorem commitIndex_le_step (shard : Nat) (label : ReplicationStep) :
    w.commitIndex shard ≤ (w.step label).commitIndex shard := by
  rw [commitIndex_eq, commitIndex_eq]
  rcases shardProgress_step w shard label with ⟨-, heq⟩ | ⟨node, seq, -, -, heq⟩
  · rw [heq]
  · rw [heq]
    exact commitIndex_le_recordAck

theorem commitIndex_le_run (shard : Nat) (steps : List ReplicationStep) :
    w.commitIndex shard ≤ (run step w steps).commitIndex shard :=
  @run_preserves _ _ step (fun w' => w.commitIndex shard ≤ w'.commitIndex shard)
    (fun w' label h => h.trans (commitIndex_le_step w' shard label)) w le_rfl steps

end

/-- The followers take only writes that the owner has made, an entry above zero is the number of a
write taken, and so the commit index is that of a write. -/
structure Inv (set : ReplicaSet) (shard : Nat) (w : ReplicaWriter) : Prop where
  replicaSets : w.replicaSets shard = some set
  taken : ∀ node seq, (shard, node, seq) ∈ w.taken → node ∈ set.followers ∧ 0 < seq ∧ seq ≤ w.highWater shard
  entries : ∀ row ∈ (w.shardProgress shard).replicaProgress.rows, row.2 = 0 ∨ (shard, row.1, row.2) ∈ w.taken
  committed : (w.shardProgress shard).commitIndex ≤ w.highWater shard

variable {row : NodeName × Nat} {node : NodeName} {p : ShardProgress} {label : ReplicationStep}

theorem Inv.le_highWater (h : w.Inv set shard)
    (hrow : row.2 = 0 ∨ (shard, row.1, row.2) ∈ w.taken) : row.2 ≤ w.highWater shard := by
  rcases hrow with hzero | htaken
  · rw [hzero]
    exact zero_le _
  · exact (h.taken _ _ htaken).2.2

theorem Inv.mem_raise (h : w.Inv set shard) {seq : Nat} (htaken : (shard, node, seq) ∈ w.taken)
    (hrow : row ∈ ((w.shardProgress shard).raise node seq).rows) :
    row.2 = 0 ∨ (shard, row.1, row.2) ∈ w.taken := by
  rcases ShardProgress.mem_raise hrow with hold | rfl
  · exact h.entries row hold
  · exact .inr htaken

theorem Inv.step (h : w.Inv set shard) (label : ReplicationStep) :
    (w.step label).Inv set shard where
  replicaSets := by rw [replicaSets_step, h.replicaSets]
  taken := by
    intro node seq hmem
    have hhigh := (highWater_step w shard label).1
    rcases taken_step w label with heq | ⟨shard', node', seq', hnode, hpos, hseq, heq⟩
    · obtain ⟨hnode, hpos, hseq⟩ := h.taken node seq (heq ▸ hmem)
      exact ⟨hnode, hpos, hseq.trans hhigh⟩
    · rw [heq, mem_insert, Prod.mk.injEq, Prod.mk.injEq] at hmem
      rcases hmem with ⟨rfl, rfl, rfl⟩ | hold
      · rw [followers, h.replicaSets] at hnode
        exact ⟨hnode, hpos, hseq.trans hhigh⟩
      · obtain ⟨hnode, hpos, hseq⟩ := h.taken node seq hold
        exact ⟨hnode, hpos, hseq.trans hhigh⟩
  entries := by
    intro row hrow
    have hsubset := taken_subset_step w label
    rcases shardProgress_step w shard label with ⟨heq, -⟩ | ⟨node, seq, -, htaken, heq⟩
    · exact (h.entries row (heq ▸ hrow)).imp_right fun hmem => hsubset hmem
    · rw [heq, replicaProgress_recordAck] at hrow
      exact (h.mem_raise htaken hrow).imp_right fun hmem => hsubset hmem
  committed := by
    refine le_trans ?_ (highWater_step w shard label).1
    rcases shardProgress_step w shard label with ⟨-, heq⟩ | ⟨node, seq, -, htaken, heq⟩
    · rw [heq]
      exact h.committed
    · rw [heq]
      rcases commitIndex_recordAck rfl with hsame | hcount
      · rw [hsame]
        exact h.committed
      · obtain ⟨row, hrow, hle⟩ := countP_pos_iff.mp ((succ_pos _).trans_le hcount)
        exact (of_decide_eq_true hle).trans (h.le_highWater (h.mem_raise htaken hrow))

/-! ### A majority -/

def EntryReached (p : ShardProgress) (node : NodeName) (index : Nat) : Prop :=
  ∃ row ∈ p.replicaProgress.rows, row.1 = node ∧ index ≤ row.2

/-- With the owner, the replicas whose entries have reached the commit index make a majority of the
replica set. -/
def Covered (set : ReplicaSet) (p : ShardProgress) : Prop :=
  p.commitIndex = 0 ∨ ∃ nodes : Finset NodeName,
    (∀ node ∈ nodes, EntryReached p node p.commitIndex) ∧
    set.totalNodes / 2 ≤ nodes.card

private theorem length_raise (p : ShardProgress) (replica : NodeName) (seq : Nat) :
    (p.raise replica seq).rows.length = (insert replica p.replicas).card := by
  rw [← card_keys, raise, keys_put, replicas]

theorem EntryReached.recordAck {index : Nat} (h : EntryReached p node index)
    (replica : NodeName) (seq : Nat) : EntryReached (p.recordAck replica seq) node index := by
  obtain ⟨row, hrow, rfl, hle⟩ := h
  rw [EntryReached, replicaProgress_recordAck]
  obtain ⟨row', hrow', hkey, hle'⟩ := exists_mem_raise hrow replica seq
  exact ⟨row', hrow', hkey, hle.trans hle'⟩

theorem Covered.recordAck {replica : NodeName} {seq : Nat} (h : Covered set p)
    (henough : set.totalNodes / 2 ≤ (insert replica p.replicas).card / 2 + 1) :
    Covered set (p.recordAck replica seq) := by
  unfold Covered
  rcases commitIndex_recordAck rfl with hsame | hcount
  · rw [hsame]
    rcases h with hzero | ⟨nodes, hnodes, hcard⟩
    · exact .inl hzero
    · exact .inr ⟨nodes, fun node hnode => (hnodes node hnode).recordAck replica seq, hcard⟩
  · set index := (p.recordAck replica seq).commitIndex
    let reached := (p.raise replica seq).rows.filter fun row => index ≤ row.2
    have hnodup : (reached.map Prod.fst).Nodup := (nodup_map_fst _).sublist (filter_sublist.map _)
    refine .inr ⟨(reached.map Prod.fst).toFinset, ?_, ?_⟩
    · intro node hnode
      obtain ⟨row, hrow, rfl⟩ := mem_map.mp (mem_toFinset.mp hnode)
      obtain ⟨hmem, hle⟩ := mem_filter.mp hrow
      rw [EntryReached, replicaProgress_recordAck]
      exact ⟨row, hmem, rfl, of_decide_eq_true hle⟩
    · rw [toFinset_card_of_nodup hnodup, length_map, ← countP_eq_length_filter]
      rw [length_raise] at hcount
      exact henough.trans hcount

theorem covered_step (henough : TracksEnough set shard w label)
    (h : Covered set (w.shardProgress shard)) :
    Covered set ((w.step label).shardProgress shard) := by
  rcases shardProgress_step w shard label with ⟨hrows, hindex⟩ | ⟨node, seq, rfl, -, heq⟩
  · unfold Covered EntryReached
    rw [hrows, hindex]
    exact h
  · rw [heq]
    exact h.recordAck (henough rfl)

theorem majority_of_covered (h : Covered set (w.shardProgress shard)) {P : NodeName → Prop}
    (howner : P set.owner)
    (hP : ∀ node, EntryReached (w.shardProgress shard) node (w.commitIndex shard) → node ∈ set.followers ∧ P node) :
    w.commitIndex shard = 0 ∨ set.Majority P := by
  rw [commitIndex_eq] at hP ⊢
  rcases h with hzero | ⟨nodes, hnodes, hcard⟩
  · exact .inl hzero
  · have hnew : set.owner ∉ nodes := fun hmem => set.owner_notMem (hP _ (hnodes _ hmem)).1
    refine .inr ⟨insert set.owner nodes, ?_, ?_⟩
    · intro node hnode
      rcases mem_insert.mp hnode with rfl | hnode
      · exact ⟨mem_cons_self, howner⟩
      · obtain ⟨hfollower, hcounts⟩ := hP node (hnodes node hnode)
        exact ⟨mem_cons_of_mem _ hfollower, hcounts⟩
    · rw [card_insert_of_notMem hnew]
      omega

/-- What a follower has an entry for, it has taken with all before. -/
def Contiguous (shard : Nat) (w : ReplicaWriter) : Prop :=
  ∀ row ∈ (w.shardProgress shard).replicaProgress.rows, ∀ seq, 0 < seq → seq ≤ row.2 →
    (shard, row.1, seq) ∈ w.taken

theorem Contiguous.step (h : w.Contiguous shard) (horder : InOrder shard w label) :
    (w.step label).Contiguous shard := by
  intro row hrow seq hpos hle
  apply taken_subset_step w label
  rcases shardProgress_step w shard label with ⟨heq, -⟩ | ⟨node, last, rfl, htaken, heq⟩
  · exact h row (heq ▸ hrow) seq hpos hle
  · rw [heq, replicaProgress_recordAck] at hrow
    rcases mem_raise hrow with hold | rfl
    · exact h row hold seq hpos hle
    · rcases hle.lt_or_eq with hlt | rfl
      · exact horder rfl seq hpos hlt
      · exact htaken

/-! ### Runs -/

section Runs
variable {replicaSets : Nat → Option ReplicaSet} {writeConcern : WriteConcern} {logged : Bool}
  {inits : Option (List (Nat × List NodeName))}

def Fresh (p : ShardProgress) : Prop :=
  p.commitIndex = 0 ∧ ∀ row ∈ p.replicaProgress.rows, row.2 = 0

theorem fresh_new (shard : Nat) : Fresh (.new shard) := ⟨rfl, fun _ hrow => absurd hrow not_mem_nil⟩

theorem fresh_initShard {progress : ReplicationProgress} (h : ∀ shard, Fresh (progress.entry shard))
    (shard' : Nat) (replicas : List NodeName) (shard : Nat) :
    Fresh ((progress.initShard shard' replicas).entry shard) := by
  rw [initShard, entry_put]
  split
  · refine ⟨rfl, fun row hrow => ?_⟩
    rcases mem_of_mem_putAll hrow with hinit | hnone
    · obtain ⟨replica, -, rfl⟩ := mem_map.mp hinit
      rfl
    · exact absurd hnone not_mem_nil
  · exact h shard

theorem fresh_start (shard : Nat) :
    Fresh ((start replicaSets writeConcern logged inits).shardProgress shard) := by
  cases inits with
  | none => exact fresh_new shard
  | some inits =>
    let fresh : ReplicationProgress → Prop := fun progress => ∀ shard, Fresh (progress.entry shard)
    have hempty : fresh .empty := fresh_new
    exact foldlRecOn (motive := fresh) inits _ hempty (fun progress h init _ => fresh_initShard h init.1 init.2) shard

theorem inv_start (hset : replicaSets shard = some set) :
    (start replicaSets writeConcern logged inits).Inv set shard where
  replicaSets := hset
  taken := fun _ _ hmem => absurd hmem (notMem_empty _)
  entries := fun row hrow => .inl ((fresh_start shard).2 row hrow)
  committed := by rw [(fresh_start shard).1]; exact zero_le _

theorem contiguous_start : (start replicaSets writeConcern logged inits).Contiguous shard := by
  intro row hrow seq hpos hle
  rw [(fresh_start shard).2 row hrow] at hle
  exact absurd hle (not_le.mpr hpos)

theorem contiguous_of_along {steps : List ReplicationStep}
    (hsteps : Along step (InOrder shard) (start replicaSets writeConcern logged inits) steps) :
    (run step (start replicaSets writeConcern logged inits) steps).Contiguous shard :=
  run_invariant (fun _ _ h horder => h.step horder) contiguous_start hsteps

theorem Inv.owner (h : w.Inv set shard) (hpos : 0 < w.commitIndex shard) :
    w.Acknowledged set shard set.owner (w.commitIndex shard) := by
  rw [Acknowledged, if_pos rfl]
  exact ⟨hpos, commitIndex_eq w shard ▸ h.committed⟩

theorem Inv.acknowledged (h : w.Inv set shard) {node : NodeName} {seq : Nat}
    (htaken : (shard, node, seq) ∈ w.taken) :
    node ∈ set.followers ∧ w.Acknowledged set shard node seq := by
  have hfollower := (h.taken node seq htaken).1
  have hne : node ≠ set.owner := fun heq => set.owner_notMem (heq ▸ hfollower)
  rw [Acknowledged, if_neg hne]
  exact ⟨hfollower, htaken⟩

/-- **The commit index.** If enough replicas have an entry whenever an acknowledgement is recorded,
then the commit index is never above a number that a majority of the replica set has reached; if
moreover the followers acknowledge in order, never above one that a majority has acknowledged
itself. In any case it never decreases. -/
theorem commitIndex_le_of_along (hset : replicaSets shard = some set) {steps : List ReplicationStep}
    (hsteps : Along step (TracksEnough set shard) (start replicaSets writeConcern logged inits) steps) :
    let w := run step (start replicaSets writeConcern logged inits) steps
    (∃ seq, w.commitIndex shard ≤ seq ∧ (seq = 0 ∨ set.Majority fun node => w.Reached set shard node seq)) ∧
      (Along step (InOrder shard) (start replicaSets writeConcern logged inits) steps →
        ∃ seq, w.commitIndex shard ≤ seq ∧ (seq = 0 ∨ set.Majority fun node => w.Acknowledged set shard node seq)) ∧
      ∀ more, w.commitIndex shard ≤ (run step w more).commitIndex shard := by
  intro w
  have hinv : w.Inv set shard := run_preserves (fun _ label h => h.step label) (inv_start hset) steps
  have hcovered : Covered set (w.shardProgress shard) :=
    @run_invariant _ _ step (TracksEnough set shard) (fun w => Covered set (w.shardProgress shard))
      (fun _ _ h henough => covered_step henough h) _ (.inl (fresh_start shard).1) steps hsteps
  refine ⟨⟨w.commitIndex shard, le_rfl, ?_⟩, fun horder => ⟨w.commitIndex shard, le_rfl, ?_⟩, commitIndex_le_run w shard⟩
  · rcases Nat.eq_zero_or_pos (w.commitIndex shard) with hzero | hpos
    · exact .inl hzero
    · refine majority_of_covered hcovered ⟨_, le_rfl, hinv.owner hpos⟩ ?_
      rintro node ⟨row, hrow, rfl, hle⟩
      have htaken := (hinv.entries row hrow).resolve_left (hpos.trans_le hle).ne'
      obtain ⟨hfollower, hacknowledged⟩ := hinv.acknowledged htaken
      exact ⟨hfollower, row.2, hle, hacknowledged⟩
  · rcases Nat.eq_zero_or_pos (w.commitIndex shard) with hzero | hpos
    · exact .inl hzero
    · refine majority_of_covered hcovered (hinv.owner hpos) ?_
      rintro node ⟨row, hrow, rfl, hle⟩
      exact hinv.acknowledged (contiguous_of_along horder row hrow _ hpos hle)

end Runs

/-- One of two followers takes the first write. -/
theorem commitIndex_le_three_nodes :
    let set : ReplicaSet := ⟨"n0", ["n1", "n2"], by decide, by decide⟩
    let w := run step (start (fun _ => some set) .majority true (some []))
      [.owner 0, .follower 0 "n1" 1, .ack 0 "n1" 1]
    w.commitIndex 0 = 1 ∧ ∃ seq, w.commitIndex 0 ≤ seq ∧
      (seq = 0 ∨ set.Majority fun node => w.Acknowledged set 0 node seq) := by
  intro set w
  have henough : Along step (TracksEnough set 0) (start (fun _ => some set) .majority true (some []))
      [.owner 0, .follower 0 "n1" 1, .ack 0 "n1" 1] := ⟨trivial, trivial, fun _ => by decide, trivial⟩
  refine ⟨by decide, (commitIndex_le_of_along rfl henough).2.1 ⟨trivial, trivial, fun _ seq hpos hlt => ?_, trivial⟩⟩
  omega

def fiveNodes : ReplicaSet := ⟨"n0", ["n1", "n2", "n3", "n4"], by decide, by decide⟩

/-- Only the first follower takes the first write, which fails. It is the only one with an entry,
and so its own majority. -/
theorem commitIndex_without_majority :
    let result := (start (fun _ => some fiveNodes) .majority true (some [])).quorumWrite
      ⟨0, false, fun node => if node = "n1" then .succeeded else .failed, 4⟩
    result.2 = .error (.quorumFailed 2 3) ∧ result.1.commitIndex 0 = 1 ∧
      ∀ seq, ¬ fiveNodes.Majority fun node => result.1.Reached fiveNodes 0 node seq := by
  intro result
  refine ⟨rfl, by decide, ?_⟩
  rintro seq ⟨nodes, hnodes, hcard⟩
  have htaken : result.1.taken = {(0, "n1", 1)} := by decide
  have hsubset : nodes ⊆ {"n0", "n1"} := by
    intro node hnode
    obtain ⟨later, -, hacknowledged⟩ := (hnodes node hnode).2
    rw [Acknowledged, htaken, Finset.mem_singleton] at hacknowledged
    split at hacknowledged
    · next howner =>
      rw [howner]
      decide
    · rw [show node = "n1" from congrArg (fun write => write.2.1) hacknowledged]
      decide
  exact absurd (hcard.trans (card_le_card hsubset)) (by decide)

end ReplicaWriter
end Nexora.Cluster
