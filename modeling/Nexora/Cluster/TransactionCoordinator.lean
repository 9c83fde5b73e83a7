import Nexora.Cluster.TransactionParticipant
import Nexora.Cluster.ReplicationProgress
import Nexora.Lib.Numeral
import Nexora.Value
import Mathlib.Data.List.TakeWhile

/-!
# The coordinator of a distributed transaction

The coordinator asks every participant for a property; if all answer in time it sends each one its
operations, and otherwise none (`nexora-zenoh/src/transaction.rs`). Only a transaction that goes
through is reported as it went.
-/

namespace Nexora.Cluster
open Lib List Nat Table
open Option hiding map_map or_self

/-! ### Operations -/

inductive GraphOperation where
  | getProperty (qid : NexoraId) (key : String)
  | setProperty (qid : NexoraId) (key : String) (value : Json)
  | addEdge (source : NexoraId) (edgeType : String) (target : NexoraId) (direction : String)
  | getEdges (qid : NexoraId) (edgeType : Option String)
  | getAllProperties (qid : NexoraId)
  | executeCypher (query : String)
  | ping
  | fencedWrite (shardId epoch seq : Nat) (inner : GraphOperation)
  | exportShard (shardId totalShards : Nat)
  | exportDelta (shardId fromSeq : Nat)
  | exportDigest (shardId : Nat)
  | scanEventTable (table : String)
  | applyOntology (pkgJson : String)
  | removeOntology (domain : String)

def GraphOperation.isReadOnly : GraphOperation → Bool
  | .getProperty _ _ | .getEdges _ _ | .getAllProperties _ | .executeCypher _ | .exportShard _ _ | .exportDelta _ _
  | .exportDigest _ | .scanEventTable _ | .ping => true
  | .setProperty _ _ _ | .addEdge _ _ _ _ | .applyOntology _ | .removeOntology _ | .fencedWrite _ _ _ _ => false

def toHex (qid : NexoraId) : String :=
  String.ofList ((qid.bytes.flatMap fun byte => fixedNumeral 16 2 byte.toNat).map fun digit => Char.ofNat digit.toNat)

/-! ### The client -/

abbrev TxnId := String

abbrev ParticipantId := String

inductive ClientReply where
  | ok
  | error (text : String)
  | never
deriving DecidableEq

/-- How the client answers: each probe and each operation of a participant, and whether what a
participant was asked in a phase is over before the time of the phase is up; and how the text of a
failure is printed. -/
structure TransactionClient where
  prepareReply : ParticipantId → Nat → ClientReply
  prepareInTime : ParticipantId → Bool
  commitReply : ParticipantId → Nat → ClientReply
  commitInTime : ParticipantId → Bool
  debugFailure : Option (ParticipantId × String) → String

/-- The operations of each participant, in the order in which the map is gone through. -/
structure OperationMap where
  entries : List (ParticipantId × List GraphOperation)
  nodup : (entries.map Prod.fst).Nodup

def OperationMap.participants (operations : OperationMap) : List ParticipantId :=
  operations.entries.map Prod.fst

/-! ### What a participant is asked -/

def probeOf : GraphOperation → GraphOperation
  | .setProperty qid key _ => .getProperty qid key
  | _ => .getProperty ⟨Json.ascii "__txn_probe__"⟩ "__probe__"

def notReachable (participant : ParticipantId) (e : String) : GraphOperation → String
  | .setProperty qid _ _ => "node " ++ toHex qid ++ " not reachable on " ++ participant ++ ": " ++ e
  | _ => "participant " ++ participant ++ " not reachable: " ++ e

/-- Send a message for each operation from a place on, until one is not answered or answered with an
error: what is sent, and the first error, if the end is reached. -/
def sendInTurn (reply : Nat → ClientReply) (message : GraphOperation → GraphOperation) :
    List GraphOperation → Nat → List GraphOperation × Option (Option (GraphOperation × String))
  | [], _ => ([], some none)
  | op :: ops, i =>
    match reply i with
    | .ok =>
      let rest := sendInTurn reply message ops (i + 1)
      (message op :: rest.1, rest.2)
    | .error e => ([message op], some (some (op, e)))
    | .never => ([message op], none)

def prepareParticipant (reply : Nat → ClientReply) (participant : ParticipantId)
    (ops : List GraphOperation) :
    List GraphOperation × Option Vote :=
  let r := sendInTurn reply probeOf ops 0
  (r.1, r.2.map fun error => error.elim .yes fun failure => .no (notReachable participant failure.2 failure.1))

def commitParticipant (reply : Nat → ClientReply) (ops : List GraphOperation) :
    List GraphOperation × Option (Option String) :=
  let r := sendInTurn reply id ops 0
  (r.1, r.2.map fun error => error.map Prod.snd)

def Vote.reason? : Vote → Option String
  | .yes => none
  | .no reason => some reason

namespace TransactionClient
variable (client : TransactionClient)
variable (entry : ParticipantId × List GraphOperation)

def vote : Option Vote :=
  (prepareParticipant (client.prepareReply entry.1) entry.1 entry.2).2

def ack : Option (Option String) :=
  (commitParticipant (client.commitReply entry.1) entry.2).2

def voted (entries : List (ParticipantId × List GraphOperation)) :
    List (ParticipantId × List GraphOperation) :=
  entries.takeWhile fun entry => (client.vote entry).isSome && client.prepareInTime entry.1

def votes (entries : List (ParticipantId × List GraphOperation)) : List (ParticipantId × Vote) :=
  (client.voted entries).filterMap fun entry => (client.vote entry).map fun vote => (entry.1, vote)

def missing (entries : List (ParticipantId × List GraphOperation)) : List ParticipantId :=
  (entries.map Prod.fst).filter fun participant => participant ∉ (client.votes entries).map Prod.fst

/-- A vote that is missing counts as one against. -/
def allVotes (entries : List (ParticipantId × List GraphOperation)) : List (ParticipantId × Vote) :=
  client.votes entries ++ (client.missing entries).map fun participant => (participant, .no "prepare timeout")

def against (entries : List (ParticipantId × List GraphOperation)) :
    List (ParticipantId × String) :=
  (client.allVotes entries).filterMap fun vote => vote.2.reason?.map fun reason => (vote.1, reason)

def heard (entries : List (ParticipantId × List GraphOperation)) :
    List (ParticipantId × List GraphOperation) :=
  entries.takeWhile fun entry => (client.ack entry).isSome && client.commitInTime entry.1

def acked (entries : List (ParticipantId × List GraphOperation)) : List ParticipantId :=
  ((client.heard entries).filter fun entry => client.ack entry = some none).map Prod.fst

/-- The first participant that returned an error, or the time that is up. -/
def failed (entries : List (ParticipantId × List GraphOperation)) :
    Option (ParticipantId × String) :=
  ((client.heard entries).findSome? fun entry =>
      (client.ack entry).bind fun error => error.map fun reason => (entry.1, reason)).or
    (if (client.heard entries).length < entries.length then some ("<unknown>", "commit phase timeout") else none)

def probesSent (operations : OperationMap) : List (ParticipantId × GraphOperation) :=
  operations.entries.flatMap fun entry =>
    (prepareParticipant (client.prepareReply entry.1) entry.1 entry.2).1.map fun op => (entry.1, op)

def operationsSent (operations : OperationMap) : List (ParticipantId × GraphOperation) :=
  operations.entries.flatMap fun entry =>
    (commitParticipant (client.commitReply entry.1) entry.2).1.map fun op => (entry.1, op)

end TransactionClient

/-! ### The two phases -/

structure TransactionMeta where
  state : TransactionState
  operations : OperationMap
  votes : List (ParticipantId × Vote)
  acks : List ParticipantId
  failureReason : Option String
  failedParticipant : Option (ParticipantId × String)

def TransactionMeta.new (operations : OperationMap) : TransactionMeta :=
  ⟨.initiated, operations, [], [], none, none⟩

structure TransactionResult where
  txnId : TxnId
  state : TransactionState
  participants : List ParticipantId
  committedParticipants : List ParticipantId
  failedParticipant : Option (ParticipantId × String)

structure TransactionCoordinator where
  active : Table TxnId TransactionMeta
  completed : List TransactionResult

inductive PrepareOutcome where
  | allYes (updated : TransactionMeta)
  | anyNo (updated : TransactionMeta)

/-- The first phase. Of several participants that voted against, the order in which the map of votes
is gone through decides which is named; here it is that of the participants. -/
def preparePhase (client : TransactionClient) (txn : TransactionMeta) : PrepareOutcome :=
  let entries := txn.operations.entries
  let late := ((client.missing entries).getLast?.map fun participant => (participant, "prepare timeout")).or txn.failedParticipant
  let updated := { txn with state := .preparing, votes := client.allVotes entries, failedParticipant := late }
  if client.against entries = [] then .allYes updated
  else
    .anyNo
      { updated with
        failureReason := (client.against entries).getLast?.map Prod.snd
        failedParticipant := late.or (client.against entries).head? }

variable (active : Table TxnId TransactionMeta)

def modifyActive (txnId : TxnId) (change : TransactionMeta → TransactionMeta) :
    Table TxnId TransactionMeta :=
  (active.find? txnId).elim active fun txn => active.put txnId (change txn)

def commitPhase (client : TransactionClient) (active : Table TxnId TransactionMeta) (txnId : TxnId)
    (txn : TransactionMeta) :
    Table TxnId TransactionMeta × Except String TransactionState :=
  let entries := txn.operations.entries
  let acks := txn.acks ++ client.acked entries
  let failed := client.failed entries
  if acks.length ≠ entries.length ∨ failed.isSome then
    (modifyActive active txnId fun m =>
      { m with
        state := .commitIncomplete
        acks := acks
        failedParticipant := failed.or m.failedParticipant
        failureReason := (failed.map Prod.snd).or m.failureReason },
      .error ("commit incomplete: " ++ toString acks.length ++ "/" ++ toString entries.length ++
        " participants acknowledged, failure: " ++ client.debugFailure failed))
  else (modifyActive active txnId fun m => { m with state := .committed, acks := acks }, .ok .committed)

/-- All participants are taken to have acknowledged. -/
def abortPhase (txnId : TxnId) (txn : TransactionMeta) :
    Table TxnId TransactionMeta × TransactionState :=
  (modifyActive active txnId fun m => { m with state := .aborted, acks := txn.acks ++ txn.operations.participants }, .aborted)

variable (completed : List TransactionResult)

def keepLast : List TransactionResult := completed.drop (completed.length - 100)

structure TransactionRun where
  coordinator : TransactionCoordinator
  result : TransactionResult
  sent : List (ParticipantId × GraphOperation)

def finishTransaction (active : Table TxnId TransactionMeta) (txnId : TxnId)
    (state : TransactionState) (sent : List (ParticipantId × GraphOperation)) : TransactionRun :=
  let txn := (active.find? txnId).getD (.new ⟨[], List.nodup_nil⟩)
  let result : TransactionResult := ⟨txnId, state, txn.operations.participants, txn.acks, txn.failedParticipant⟩
  ⟨⟨active.erase txnId, keepLast (completed ++ [result])⟩, result, sent⟩

def executeTransaction (client : TransactionClient) (c : TransactionCoordinator) (txnId : TxnId)
    (operations : OperationMap) :
    TransactionRun :=
  let txn := TransactionMeta.new operations
  let active := c.active.put txnId txn
  let probes := client.probesSent operations
  match preparePhase client txn with
  | .allYes updated =>
    match commitPhase client active txnId updated with
    | (active, .ok state) => finishTransaction c.completed active txnId state (probes ++ client.operationsSent operations)
    | (active, .error e) =>
      let result : TransactionResult := ⟨txnId, .commitIncomplete, operations.participants, [], some ("", e)⟩
      let completed := c.completed ++ [result]
      ⟨⟨active, if 100 < completed.length then completed.tail else completed⟩, result,
        probes ++ client.operationsSent operations⟩
  | .anyNo updated =>
    let active := modifyActive active txnId fun m =>
      { m with
        failedParticipant := updated.failedParticipant
        failureReason := updated.failureReason
        votes := updated.votes }
    let aborted := abortPhase active txnId updated
    finishTransaction c.completed aborted.1 txnId aborted.2 probes

/-! ### What the outcome should be -/

def TransactionClient.PrepareOk (client : TransactionClient)
    (entry : ParticipantId × List GraphOperation) : Prop :=
  (∀ i < entry.2.length, client.prepareReply entry.1 i = .ok) ∧ client.prepareInTime entry.1 = true

def TransactionClient.CommitOk (client : TransactionClient)
    (entry : ParticipantId × List GraphOperation) : Prop :=
  (∀ i < entry.2.length, client.commitReply entry.1 i = .ok) ∧ client.commitInTime entry.1 = true

def Acknowledged (client : TransactionClient) (operations : OperationMap)
    (participant : ParticipantId) : Prop :=
  (∀ entry ∈ operations.entries, client.PrepareOk entry) ∧
    ∃ entry ∈ operations.entries, entry.1 = participant ∧ client.CommitOk entry

/-- The report is what happened: committed if every participant has acknowledged all its operations,
and given up only if none was sent one; those reported as committed are those that have
acknowledged; and the transaction is no longer active. -/
structure Truthful (client : TransactionClient) (operations : OperationMap) (txnId : TxnId)
    (r : TransactionRun) : Prop where
  committed : r.result.state = .committed ↔
    (∀ entry ∈ operations.entries, client.PrepareOk entry) ∧ ∀ entry ∈ operations.entries, client.CommitOk entry
  aborted : r.result.state = .aborted → ∀ message ∈ r.sent, message.2.isReadOnly = true
  participants : ∀ participant, participant ∈ r.result.committedParticipants ↔
    Acknowledged client operations participant
  inactive : r.coordinator.active.find? txnId = none

/-- Every probe and every operation is answered without an error, in time. -/
def GoesThrough (client : TransactionClient) (operations : OperationMap) : Prop :=
  ∀ entry ∈ operations.entries, client.PrepareOk entry ∧ client.CommitOk entry

/-! ### The first phase -/

theorem snd_sendInTurn_iff (reply : Nat → ClientReply) (message : GraphOperation → GraphOperation)
    (ops : List GraphOperation) (i : Nat) :
    (sendInTurn reply message ops i).2 = some none ↔ ∀ j < ops.length, reply (i + j) = .ok := by
  induction ops generalizing i with
  | nil => exact iff_of_true rfl fun j hj => absurd hj (not_lt_zero j)
  | cons op ops ih =>
    rw [length_cons, forall_lt_succ_left]
    simp only [add_zero, ← add_assoc, add_right_comm i _ 1]
    cases hreply : reply i with
    | ok => simp only [sendInTurn, hreply, ih, true_and]
    | error e => simp only [sendInTurn, hreply, some.injEq, reduceCtorEq, false_and]
    | never => simp only [sendInTurn, hreply, reduceCtorEq, false_and]

theorem exists_of_mem_sendInTurn {reply : Nat → ClientReply}
    {message : GraphOperation → GraphOperation} {ops : List GraphOperation} {i : Nat}
    {sent : GraphOperation} (h : sent ∈ (sendInTurn reply message ops i).1) :
    ∃ op ∈ ops, sent = message op := by
  induction ops generalizing i with
  | nil => exact absurd h not_mem_nil
  | cons op ops ih =>
    cases hreply : reply i with
    | ok =>
      simp only [sendInTurn, hreply] at h
      rcases mem_cons.mp h with hsent | hrest
      · exact ⟨op, mem_cons_self, hsent⟩
      · obtain ⟨other, hother, hsent⟩ := ih hrest
        exact ⟨other, mem_cons_of_mem _ hother, hsent⟩
    | error e | never =>
      simp only [sendInTurn, hreply] at h
      exact ⟨op, mem_cons_self, mem_singleton.mp h⟩

theorem isReadOnly_probeOf (op : GraphOperation) :
    (probeOf op).isReadOnly = true := by cases op <;> rfl

namespace TransactionClient
variable {client : TransactionClient} {operations : OperationMap}

theorem isReadOnly_of_mem_probesSent {message : ParticipantId × GraphOperation}
    (h : message ∈ client.probesSent operations) : message.2.isReadOnly = true := by
  obtain ⟨entry, -, hmessage⟩ := mem_flatMap.mp h
  obtain ⟨op, hop, rfl⟩ := mem_map.mp hmessage
  obtain ⟨asked, -, rfl⟩ := exists_of_mem_sendInTurn hop
  exact isReadOnly_probeOf asked

variable {entry : ParticipantId × List GraphOperation}

theorem prepareOk_iff : client.PrepareOk entry ↔ client.vote entry = some .yes ∧ client.prepareInTime entry.1 = true := by
  have hsend := snd_sendInTurn_iff (client.prepareReply entry.1) probeOf entry.2 0
  simp only [zero_add] at hsend
  rw [PrepareOk, ← hsend, vote, prepareParticipant]
  refine and_congr_left' ⟨fun hend => by rw [hend]; rfl, fun hvote => ?_⟩
  obtain ⟨error, hend, hyes⟩ := map_eq_some_iff.mp hvote
  cases error with
  | none => exact hend
  | some failure => exact absurd hyes (by rintro ⟨⟩)

theorem voted_eq_of_missing_eq_nil (hmissing : client.missing operations.entries = []) :
    client.voted operations.entries = operations.entries := by
  have hsplit := takeWhile_append_dropWhile (p := fun entry => (client.vote entry).isSome && client.prepareInTime entry.1)
    (l := operations.entries)
  have hnodup := operations.nodup
  rw [← hsplit, map_append] at hnodup
  have hdisjoint := (nodup_append'.mp hnodup).2.2
  -- A participant behind the first that is late has cast no vote.
  have hlate : operations.entries.dropWhile (fun entry => (client.vote entry).isSome && client.prepareInTime entry.1) = [] := by
    refine eq_nil_iff_forall_not_mem.mpr fun entry hentry => ?_
    have hname := mem_map_of_mem (f := Prod.fst) hentry
    have hnot : entry.1 ∉ (client.votes operations.entries).map Prod.fst := by
      intro hvote
      obtain ⟨vote, hvote, hfst⟩ := mem_map.mp hvote
      obtain ⟨voter, hvoter, hmap⟩ := mem_filterMap.mp hvote
      obtain ⟨v, -, rfl⟩ := map_eq_some_iff.mp hmap
      exact hdisjoint (hfst ▸ mem_map_of_mem (f := Prod.fst) hvoter) hname
    have hmem : entry.1 ∈ client.missing operations.entries :=
      mem_filter.mpr ⟨mem_map_of_mem ((dropWhile_sublist _).mem hentry), decide_eq_true hnot⟩
    rw [hmissing] at hmem
    exact absurd hmem not_mem_nil
  rw [hlate, append_nil] at hsplit
  exact hsplit

theorem votes_of_forall_prepareOk (hok : ∀ entry ∈ operations.entries, client.PrepareOk entry) :
    client.votes operations.entries = operations.entries.map fun entry => (entry.1, .yes) := by
  have hvoted : client.voted operations.entries = operations.entries :=
    takeWhile_eq_self_iff.mpr fun entry hentry => by
      obtain ⟨hyes, hintime⟩ := prepareOk_iff.mp (hok entry hentry)
      rw [hyes, hintime, isSome_some, Bool.true_and]
  rw [votes, hvoted, ← filterMap_eq_map]
  refine filterMap_congr fun entry hentry => ?_
  rw [(prepareOk_iff.mp (hok entry hentry)).1]
  rfl

theorem against_eq_nil_iff :
    client.against operations.entries = [] ↔ ∀ entry ∈ operations.entries,
      client.PrepareOk entry := by
  constructor
  · intro hagainst entry hentry
    have hyes : ∀ vote ∈ client.allVotes operations.entries, vote.2.reason? = none := fun vote hvote =>
      map_eq_none_iff.mp (filterMap_eq_nil_iff.mp hagainst vote hvote)
    have hmissing : client.missing operations.entries = [] := by
      refine eq_nil_iff_forall_not_mem.mpr fun participant hparticipant => ?_
      have hno := hyes _ (mem_append_right _ (mem_map_of_mem hparticipant))
      exact absurd hno (some_ne_none _)
    have hvoted := voted_eq_of_missing_eq_nil hmissing
    obtain ⟨hsome, hintime⟩ := Bool.and_eq_true_iff.mp (takeWhile_eq_self_iff.mp hvoted entry hentry)
    obtain ⟨vote, hvote⟩ := isSome_iff_exists.mp hsome
    have hmem : (entry.1, vote) ∈ client.votes operations.entries :=
      mem_filterMap.mpr ⟨entry, hvoted.symm ▸ hentry, by rw [hvote, map_some]⟩
    have hreason := hyes _ (mem_append_left _ hmem)
    cases vote with
    | yes => exact prepareOk_iff.mpr ⟨hvote, hintime⟩
    | no reason => exact absurd hreason (some_ne_none _)
  · intro hok
    have hvotes := votes_of_forall_prepareOk hok
    have hmissing : client.missing operations.entries = [] := by
      refine filter_eq_nil_iff.mpr fun participant hparticipant => ?_
      rw [hvotes, map_map, decide_eq_true_eq, not_not]
      exact hparticipant
    rw [against, allVotes, hvotes, hmissing, map_nil, append_nil]
    refine filterMap_eq_nil_iff.mpr fun vote hvote => ?_
    obtain ⟨entry, -, rfl⟩ := mem_map.mp hvote
    rfl

/-! ### The second phase -/

theorem commitOk_iff :
    client.CommitOk entry ↔ client.ack entry = some none ∧ client.commitInTime entry.1 = true := by
  have hsend := snd_sendInTurn_iff (client.commitReply entry.1) id entry.2 0
  simp only [zero_add] at hsend
  rw [CommitOk, ← hsend, ack, commitParticipant]
  refine and_congr_left' ⟨fun hend => by rw [hend]; rfl, fun hack => ?_⟩
  obtain ⟨error, hend, hnone⟩ := map_eq_some_iff.mp hack
  rw [hend, map_eq_none_iff.mp hnone]

section
variable (hok : ∀ entry ∈ operations.entries, client.CommitOk entry)
include hok

theorem heard_eq_of_forall_commitOk : client.heard operations.entries = operations.entries :=
  takeWhile_eq_self_iff.mpr fun entry hentry => by
    obtain ⟨hack, hintime⟩ := commitOk_iff.mp (hok entry hentry)
    rw [hack, hintime, isSome_some, Bool.true_and]

theorem acked_of_forall_commitOk : client.acked operations.entries = operations.participants := by
  rw [acked, heard_eq_of_forall_commitOk hok, filter_eq_self.mpr]
  · rfl
  · exact fun entry hentry => decide_eq_true (commitOk_iff.mp (hok entry hentry)).1

theorem failed_of_forall_commitOk : client.failed operations.entries = none := by
  have hrefused : (operations.entries.findSome? fun entry =>
      (client.ack entry).bind fun error => error.map fun reason => (entry.1, reason)) = none := by
    refine findSome?_eq_none_iff.mpr fun entry hentry => ?_
    rw [(commitOk_iff.mp (hok entry hentry)).1]
    rfl
  rw [failed, heard_eq_of_forall_commitOk hok, hrefused, if_neg (lt_irrefl _)]
  rfl

end

theorem forall_commitOk_of_length_acked
    (h : (client.acked operations.entries).length = operations.entries.length) :
    ∀ entry ∈ operations.entries, client.CommitOk entry := by
  have hsub := (filter_sublist (p := fun entry => client.ack entry = some none) (l := client.heard operations.entries))
  have hheard : (client.heard operations.entries).Sublist operations.entries := takeWhile_sublist _
  rw [acked, length_map] at h
  have hall := (hsub.trans hheard).eq_of_length h
  have heq : client.heard operations.entries = operations.entries :=
    hheard.eq_of_length_le (h ▸ hsub.length_le)
  intro entry hentry
  have hack := (mem_filter.mp (hall.symm ▸ hentry)).2
  have hintime := takeWhile_eq_self_iff.mp heq entry hentry
  exact commitOk_iff.mpr ⟨of_decide_eq_true hack, (Bool.and_eq_true_iff.mp hintime).2⟩

end TransactionClient

/-! ### The outcome -/

section Outcome
open TransactionClient
variable {client : TransactionClient} {operations : OperationMap}

theorem find?_modifyActive (active : Table TxnId TransactionMeta) (txnId : TxnId)
    (change : TransactionMeta → TransactionMeta) :
    (modifyActive active txnId change).find? txnId = (active.find? txnId).map change := by
  cases hfind : active.find? txnId with
  | none => rw [modifyActive, hfind, elim_none, hfind, map_none]
  | some txn => rw [modifyActive, hfind, elim_some, find?_put, if_pos rfl, map_some]

theorem preparePhase_of_prepareOk (h : ∀ entry ∈ operations.entries, client.PrepareOk entry) :
    ∃ updated, preparePhase client (.new operations) = .allYes updated ∧
      updated.operations = operations ∧ updated.acks = [] :=
  ⟨_, if_pos (against_eq_nil_iff.mpr h), rfl, rfl⟩

theorem preparePhase_of_not_prepareOk (h : ¬ ∀ entry ∈ operations.entries, client.PrepareOk entry) :
    ∃ updated, preparePhase client (.new operations) = .anyNo updated ∧
      updated.operations = operations ∧ updated.acks = [] :=
  ⟨_, if_neg fun hnil => h (against_eq_nil_iff.mp hnil), rfl, rfl⟩

section
variable {updated : TransactionMeta} (active : Table TxnId TransactionMeta) (txnId : TxnId)
    (hacks : updated.acks = [])
include hacks

theorem commitPhase_of_commitOk (h : ∀ entry ∈ updated.operations.entries, client.CommitOk entry) :
    commitPhase client active txnId updated =
      (modifyActive active txnId fun m => { m with state := .committed, acks := updated.operations.participants },
        .ok .committed) := by
  have hlength : updated.operations.participants.length = updated.operations.entries.length :=
    length_map _
  simp only [commitPhase, hacks, acked_of_forall_commitOk h, failed_of_forall_commitOk h,
    nil_append, hlength, ne_eq, not_true_eq_false, isSome_none, Bool.false_eq_true, or_self, if_false]

theorem commitPhase_of_not_commitOk
    (h : ¬ ∀ entry ∈ updated.operations.entries, client.CommitOk entry) :
    ∃ change e, commitPhase client active txnId updated = (modifyActive active txnId change, .error e) := by
  have hacked : (updated.acks ++ client.acked updated.operations.entries).length ≠ updated.operations.entries.length := by
    rw [hacks, nil_append]
    exact fun hlength => h (forall_commitOk_of_length_acked hlength)
  exact ⟨_, _, if_pos (Or.inl hacked)⟩

end
variable (c : TransactionCoordinator)

theorem executeTransaction_of_not_prepareOk (txnId : TxnId)
    (h : ¬ ∀ entry ∈ operations.entries, client.PrepareOk entry) :
    let r := executeTransaction client c txnId operations
    r.result.state = .aborted ∧ r.result.committedParticipants = operations.participants ∧
      r.sent = client.probesSent operations := by
  obtain ⟨updated, hphase, hoperations, hacks⟩ := preparePhase_of_not_prepareOk h
  simp only [executeTransaction, hphase, abortPhase, finishTransaction, find?_modifyActive, find?_put, if_pos,
    map_some, getD_some, hoperations, hacks, nil_append, and_self]

theorem executeTransaction_of_not_commitOk (txnId : TxnId)
    (hprepare : ∀ entry ∈ operations.entries, client.PrepareOk entry)
    (h : ¬ ∀ entry ∈ operations.entries, client.CommitOk entry) :
    let r := executeTransaction client c txnId operations
    r.result.state = .commitIncomplete ∧ r.result.committedParticipants = [] ∧
      (r.coordinator.active.find? txnId).isSome = true := by
  obtain ⟨updated, hphase, rfl, hacks⟩ := preparePhase_of_prepareOk hprepare
  obtain ⟨change, e, hcommit⟩ :=
    commitPhase_of_not_commitOk (c.active.put txnId (.new updated.operations)) txnId hacks h
  simp only [executeTransaction, hphase, hcommit, find?_modifyActive, find?_put, if_pos, map_some,
    isSome_some, and_self]

theorem executeTransaction_of_goesThrough (txnId : TxnId) (h : GoesThrough client operations) :
    let r := executeTransaction client c txnId operations
    r.result.state = .committed ∧ r.result.committedParticipants = operations.participants ∧
      r.coordinator.active.find? txnId = none := by
  obtain ⟨updated, hphase, rfl, hacks⟩ := preparePhase_of_prepareOk fun entry hentry => (h entry hentry).1
  have hcommit := commitPhase_of_commitOk (c.active.put txnId (.new updated.operations)) txnId hacks
    fun entry hentry => (h entry hentry).2
  simp only [executeTransaction, hphase, hcommit, finishTransaction, find?_erase, find?_modifyActive, find?_put,
    if_pos, map_some, getD_some, and_self]

theorem goesThrough_cases (client : TransactionClient) (operations : OperationMap) :
    GoesThrough client operations ∨
      ((∀ entry ∈ operations.entries, client.PrepareOk entry) ∧ ¬ ∀ entry ∈ operations.entries, client.CommitOk entry) ∨
      ¬ ∀ entry ∈ operations.entries, client.PrepareOk entry := by
  by_cases hprepare : ∀ entry ∈ operations.entries, client.PrepareOk entry
  · by_cases hcommit : ∀ entry ∈ operations.entries, client.CommitOk entry
    · exact .inl fun entry hentry => ⟨hprepare entry hentry, hcommit entry hentry⟩
    · exact .inr (.inl ⟨hprepare, hcommit⟩)
  · exact .inr (.inr hprepare)

theorem state_eq_committed_iff (client : TransactionClient) (c : TransactionCoordinator)
    (txnId : TxnId) (operations : OperationMap) :
    (executeTransaction client c txnId operations).result.state = .committed ↔
    GoesThrough client operations := by
  refine ⟨fun hstate => ?_, fun hthrough => (executeTransaction_of_goesThrough c txnId hthrough).1⟩
  rcases goesThrough_cases client operations with hthrough | ⟨hprepare, hcommit⟩ | hprepare
  · exact hthrough
  · rw [(executeTransaction_of_not_commitOk c txnId hprepare hcommit).1] at hstate
    exact absurd hstate (by decide)
  · rw [(executeTransaction_of_not_prepareOk c txnId hprepare).1] at hstate
    exact absurd hstate (by decide)

theorem isReadOnly_of_aborted (txnId : TxnId)
    (h : (executeTransaction client c txnId operations).result.state = .aborted) :
    ∀ message ∈ (executeTransaction client c txnId operations).sent, message.2.isReadOnly = true := by
  rcases goesThrough_cases client operations with hthrough | ⟨hprepare, hcommit⟩ | hprepare
  · rw [(executeTransaction_of_goesThrough c txnId hthrough).1] at h
    exact absurd h (by decide)
  · rw [(executeTransaction_of_not_commitOk c txnId hprepare hcommit).1] at h
    exact absurd h (by decide)
  · intro message hmessage
    rw [(executeTransaction_of_not_prepareOk c txnId hprepare).2.2] at hmessage
    exact isReadOnly_of_mem_probesSent hmessage

/-- **The report is right exactly when the transaction goes through.** -/
theorem truthful_iff_goesThrough (client : TransactionClient) (c : TransactionCoordinator)
    (txnId : TxnId) (operations : OperationMap) :
    Truthful client operations txnId (executeTransaction client c txnId operations) ↔
    GoesThrough client operations := by
  constructor
  · intro htruthful
    rcases goesThrough_cases client operations with hthrough | ⟨hprepare, hcommit⟩ | hprepare
    · exact hthrough
    · have hactive := (executeTransaction_of_not_commitOk c txnId hprepare hcommit).2.2
      rw [htruthful.inactive] at hactive
      exact absurd hactive Bool.false_ne_true
    · -- Some participant is reported as committed, though the second phase was not entered.
      obtain ⟨entry, hentry, -⟩ : ∃ entry ∈ operations.entries, ¬ client.PrepareOk entry := by
        simpa only [not_forall, exists_prop] using hprepare
      have hreported := (executeTransaction_of_not_prepareOk c txnId hprepare).2.1
      have hmem : entry.1 ∈ operations.participants := mem_map_of_mem hentry
      exact absurd ((htruthful.participants entry.1).mp (hreported.symm ▸ hmem)).1 hprepare
  · intro hthrough
    obtain ⟨-, hparticipants, hactive⟩ := executeTransaction_of_goesThrough c txnId hthrough
    have hcommitted := (state_eq_committed_iff client c txnId operations).trans forall₂_and
    refine ⟨hcommitted, isReadOnly_of_aborted c txnId, fun participant => ?_, hactive⟩
    rw [hparticipants]
    constructor
    · intro hmem
      obtain ⟨entry, hentry, rfl⟩ := mem_map.mp hmem
      exact ⟨fun other hother => (hthrough other hother).1, entry, hentry, rfl, (hthrough entry hentry).2⟩
    · rintro ⟨-, entry, hentry, rfl, -⟩
      exact mem_map_of_mem hentry

end Outcome

def twoWrites : OperationMap where
  entries := [("a", [.setProperty ⟨[1]⟩ "name" .null]), ("b", [.setProperty ⟨[2]⟩ "name" .null])]
  nodup := by decide

def secondFails : TransactionClient where
  prepareReply _ _ := .ok
  prepareInTime _ := true
  commitReply participant _ := if participant = "b" then .error "disk full" else .ok
  commitInTime _ := true
  debugFailure _ := ""

/-- The write of one participant is applied, and the report leaves it out and the transaction
active. -/
theorem incomplete_commit_unreported :
    let r := executeTransaction secondFails ⟨.empty, []⟩ "t" twoWrites
    r.result.state = .commitIncomplete ∧ r.result.committedParticipants = [] ∧ Acknowledged secondFails twoWrites "a" ∧
      (r.coordinator.active.find? "t").isSome = true := by
  have hprepare : ∀ entry ∈ twoWrites.entries, secondFails.PrepareOk entry :=
    fun entry _ => ⟨fun i _ => rfl, rfl⟩
  have hfirst : secondFails.CommitOk ("a", [.setProperty ⟨[1]⟩ "name" .null]) :=
    ⟨fun i _ => rfl, rfl⟩
  have hsecond : ¬ secondFails.CommitOk ("b", [.setProperty ⟨[2]⟩ "name" .null]) := by
    rintro ⟨hreply, -⟩
    exact absurd (hreply 0 zero_lt_one) (by decide)
  have hcommit : ¬ ∀ entry ∈ twoWrites.entries, secondFails.CommitOk entry :=
    fun hall => hsecond (hall _ (mem_cons_of_mem _ mem_cons_self))
  obtain ⟨hstate, hnone, hactive⟩ := executeTransaction_of_not_commitOk ⟨.empty, []⟩ "t" hprepare hcommit
  exact ⟨hstate, hnone, ⟨hprepare, _, mem_cons_self, rfl, hfirst⟩, hactive⟩

end Nexora.Cluster
