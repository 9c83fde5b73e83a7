import Nexora.Cluster.ShardMap
import Mathlib.Data.List.MinMax

/-!
# Quorum reads

A quorum read asks all replicas of a shard and groups the answers by their JSON texts
(`nexora-zenoh/src/quorum_read.rs`). The value of the largest group is returned if the group is a
majority of all replicas. The answers come over the wire as JSON, so that results with one text are
one result.
-/

namespace Nexora.Cluster
open Lib List

inductive ReplicaAnswer (R : Type) where
  | answered (result : R)
  | failed (error : String)
  | timedOut
  | lost

structure QuorumReadResult (R : Type) where
  value : R
  responses : Nat
  totalQueried : Nat
  quorumAchieved : Bool

/-- The owner and the followers, all of which are asked. -/
def OwnedShard.holders (assignment : OwnedShard) : List NodeName :=
  assignment.owner :: assignment.replicas

variable {R : Type}

def ReplicaAnswer.result? : ReplicaAnswer R → Option R
  | .answered result => some result
  | _ => none

/-- The texts that occur, each with its number of responses and one of them. -/
def valueCounts (text : R → String) (responses : List R) : List (Nat × R) :=
  (responses.pwFilter fun r s => text r ≠ text s).map fun r => (responses.countP fun s => text s = text r, r)

/-- The texts come in any order, and of the most frequent ones the last is taken. -/
def selectConsensusValue (text : R → String) (arrange : List (Nat × R) → List (Nat × R))
    (responses : List R) (quorumSize : Nat) :
    Except RouterError R :=
  match (arrange (valueCounts text responses)).reverse.argmax Prod.fst with
  | none => .error (.remote "no responses available")
  | some (count, value) =>
    if count < quorumSize then .error (.remote s!"no quorum consensus: best agreement was {count}/{quorumSize} replicas")
    else .ok value

/-- A replica that is named twice has one response. -/
def responsesOf (replicas : List NodeName) (answer : NodeName → ReplicaAnswer R) : List R :=
  replicas.dedup.filterMap fun replica => (answer replica).result?

def readWithQuorum (failFast : Bool) (text : R → String) (arrange : List (Nat × R) → List (Nat × R))
    (map : ShardMap) (shard : Nat) (answer : NodeName → ReplicaAnswer R) :
    Except RouterError (QuorumReadResult R) :=
  match map.get shard with
  | none => .error (.nodeNotFound s!"shard {shard}")
  | some assignment =>
    let rf := assignment.holders.length
    let quorumSize := rf / 2 + 1
    let responses := responsesOf assignment.holders answer
    let count := responses.length
    if count < quorumSize ∧ failFast then
      .error (.remote s!"quorum not achieved: {count} responses, {quorumSize} required (RF={rf})")
    else (selectConsensusValue text arrange responses quorumSize).map fun value =>
      ⟨value, count, rf, decide (quorumSize ≤ count)⟩

section
variable [DecidableEq R] {text : R → String} (htext : Function.Injective text)
    {arrange : List (Nat × R) → List (Nat × R)}
  (harrange : ∀ counts, (arrange counts).Perm counts) {responses : List R} {quorumSize : Nat} {value : R}

include htext

theorem countP_text : (responses.countP fun s => text s = text value) = responses.count value :=
  countP_congr fun s _ => by simp [htext.eq_iff]

include harrange

theorem le_count_of_selectConsensusValue
    (h : selectConsensusValue text arrange responses quorumSize = .ok value) :
    quorumSize ≤ responses.count value := by
  unfold selectConsensusValue at h
  split at h
  · cases h
  · next count v hmax =>
    split at h
    · cases h
    · next hle =>
      cases h
      have hmem := (harrange _).mem_iff.mp (mem_reverse.mp (argmax_mem hmax))
      obtain ⟨r, -, hr⟩ := mem_map.mp hmem
      cases hr
      rw [← countP_text htext]
      exact not_lt.mp hle

theorem exists_selectConsensusValue_eq (hvalue : value ∈ responses)
    (h : quorumSize ≤ responses.count value) :
    ∃ v, selectConsensusValue text arrange responses quorumSize = .ok v := by
  have hgroup : ∃ r ∈ responses.pwFilter fun r s => text r ≠ text s, text value = text r := by
    by_contra hnot
    push Not at hnot
    have hall := (forall_mem_pwFilter (R := fun r s => text r ≠ text s) (fun {x y z} hxz => by grind) value responses).mp hnot
    exact hall value hvalue rfl
  obtain ⟨r, hr, htexts⟩ := hgroup
  have hmem : (responses.count value, r) ∈ (arrange (valueCounts text responses)).reverse := by
    rw [mem_reverse, (harrange _).mem_iff, htext htexts, ← countP_text htext]
    exact mem_map_of_mem hr
  unfold selectConsensusValue
  cases hmax : (arrange (valueCounts text responses)).reverse.argmax Prod.fst with
  | none => simp [argmax_eq_none.mp hmax] at hmem
  | some best =>
    have hle : responses.count value ≤ best.1 := le_of_mem_argmax hmem hmax
    exact ⟨best.2, if_neg (by omega)⟩

end

theorem count_responsesOf [DecidableEq R] {replicas : List NodeName} (hnodup : replicas.Nodup)
    (answer : NodeName → ReplicaAnswer R) (value : R) :
    (responsesOf replicas answer).count value = replicas.countP fun replica => (answer replica).result? = some value := by
  rw [responsesOf, hnodup.dedup, count, countP_filterMap]
  refine countP_congr fun replica _ => ?_
  cases (answer replica).result? <;> simp

/-- A read of replicas with these contents. -/
structure QuorumRead (contents : NodeName → R) where
  failFast : Bool
  arrange : List (Nat × R) → List (Nat × R)
  perm : ∀ counts, (arrange counts).Perm counts
  answer : NodeName → ReplicaAnswer R
  held : ∀ node value, (answer node).result? = some value → contents node = value

def QuorumRead.run {contents : NodeName → R} (read : QuorumRead contents) (text : R → String)
    (map : ShardMap) (shard : Nat) :
    Except RouterError (QuorumReadResult R) :=
  readWithQuorum read.failFast text read.arrange map shard read.answer

def OwnedShard.Majority (assignment : OwnedShard) (p : NodeName → Prop) [DecidablePred p] : Prop :=
  assignment.holders.length < 2 * assignment.holders.countP p

section
variable [DecidableEq R] {text : R → String} (htext : Function.Injective text) {map : ShardMap}
    {shard : Nat}
  {assignment : OwnedShard} (hget : map.get shard = some assignment) (hnodup : assignment.holders.Nodup)
  {contents : NodeName → R} (read : QuorumRead contents)

include htext hget hnodup

theorem majority_of_run {result : QuorumReadResult R} (h : read.run text map shard = .ok result) :
    assignment.Majority fun node => contents node = result.value := by
  simp only [QuorumRead.run, readWithQuorum, hget] at h
  split at h
  · cases h
  · cases hselect : selectConsensusValue text read.arrange (responsesOf assignment.holders read.answer)
      (assignment.holders.length / 2 + 1) with
    | error e => simp [hselect, Except.map] at h
    | ok value =>
      rw [hselect] at h
      cases h
      have hcount := le_count_of_selectConsensusValue htext read.perm hselect
      rw [count_responsesOf hnodup] at hcount
      have hle : assignment.holders.countP (fun node => (read.answer node).result? = some value) ≤
          assignment.holders.countP fun node => contents node = value :=
        countP_mono_left fun node _ hnode => decide_eq_true (read.held node value (of_decide_eq_true hnode))
      show assignment.holders.length < 2 * assignment.holders.countP fun node => contents node = value
      omega

theorem exists_run_eq {value : R}
    (h : assignment.Majority fun node => (read.answer node).result? = some value) :
    ∃ result, read.run text map shard = .ok result := by
  rw [OwnedShard.Majority, ← count_responsesOf hnodup] at h
  have hlength := (responsesOf assignment.holders read.answer).count_le_length (a := value)
  have hquorum : assignment.holders.length / 2 + 1 ≤
      (responsesOf assignment.holders read.answer).count value := by
    omega
  obtain ⟨v, hv⟩ := exists_selectConsensusValue_eq htext read.perm (count_pos_iff.mp (by omega)) hquorum
  simp only [QuorumRead.run, readWithQuorum, hget]
  rw [if_neg (by omega), hv]
  exact ⟨_, rfl⟩

/-- **Quorum reads.** A value that is read is held by a majority of the replicas; the value that a
majority holds and answers with is read; and two reads of the same contents agree, whatever fails in
each. -/
theorem run_majority (read' : QuorumRead contents) :
    (∀ result, read.run text map shard = .ok result → assignment.Majority fun node => contents node = result.value) ∧
    (∀ value, (assignment.Majority fun node => (read.answer node).result? = some value) →
      ∃ result, read.run text map shard = .ok result ∧ result.value = value) ∧
    ∀ result result', read.run text map shard = .ok result → read'.run text map shard = .ok result' →
      result.value = result'.value := by
  refine ⟨fun result => majority_of_run htext hget hnodup read, fun value hvalue => ?_, fun result result' h h' => ?_⟩
  · obtain ⟨result, hresult⟩ := exists_run_eq htext hget hnodup read hvalue
    obtain ⟨node, -, hnode, hvalue⟩ := exists_mem_of_majorities (majority_of_run htext hget hnodup read hresult) hvalue
    have hheld := read.held node value (of_decide_eq_true hvalue)
    exact ⟨result, hresult, (of_decide_eq_true hnode).symm.trans hheld⟩
  · obtain ⟨node, -, hnode, hnode'⟩ := exists_mem_of_majorities (majority_of_run htext hget hnodup read h)
      (majority_of_run htext hget hnodup read' h')
    exact (of_decide_eq_true hnode).symm.trans (of_decide_eq_true hnode')

end

def threeReplicas : ShardMap := ⟨1, 1, Table.empty.put 0 ⟨⟨"a", ["b", "c"]⟩, 1, true⟩, "a"⟩

/-- One of the replicas does not answer in time. -/
def readWithout (silent : NodeName) : QuorumRead fun _ => true where
  failFast := true
  arrange := id
  perm _ := .rfl
  answer node := if node = silent then .timedOut else .answered true
  held := by grind [ReplicaAnswer.result?]

theorem run_majority_without_owner :
    ∃ result, (readWithout "a").run (fun b => if b then "true" else "false") threeReplicas 0 =
      .ok result ∧ result.value = true :=
  (run_majority (fun b b' => by cases b <;> cases b' <;> simp) rfl (by decide) (readWithout "a") (readWithout "b")).2.1 true
    (by unfold OwnedShard.Majority; decide)

end Nexora.Cluster
