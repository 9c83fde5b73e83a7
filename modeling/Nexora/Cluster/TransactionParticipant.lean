import Nexora.Lib.Run
import Mathlib.Logic.Function.Basic

/-!
# The participant of a distributed transaction

A participant keeps the operations that have been prepared and the state in which a transaction was
completed, each under a lock of its own (`nexora-zenoh/src/transaction.rs`). Requests that overlap
fall into the gaps. The state here is that of one transaction.
-/

namespace Nexora.Cluster
open Lib List Function

inductive TransactionState where
  | initiated
  | preparing
  | committing
  | committed
  | commitIncomplete
  | aborting
  | aborted
deriving DecidableEq

inductive Vote where
  | yes
  | no (reason : String)
deriving DecidableEq

variable {Op : Type}

structure TransactionParticipant (Op : Type) where
  prepared : Option (List Op)
  completed : Option TransactionState

namespace TransactionParticipant

def new : TransactionParticipant Op := ⟨none, none⟩

def previousVote (p : TransactionParticipant Op) : Option Vote :=
  p.completed.map fun state =>
    match state with
    | .committed => .yes
    | .aborted => .no "previously aborted"
    | _ => .no "unexpected state"

end TransactionParticipant

/-! ### Requests that overlap -/

/-- Where a request is when it has released its first lock. -/
inductive Handler (Op : Type) where
  | idle
  | preparing
  | committing (rest : List Op) (success : Bool)
  | aborting

/-- The participant and its requests, with what can be seen of them: the operations executed and
how, whether an ABORT has been completed and whether an operation was executed after that, and the
answers to COMMIT, each with what had been executed when it was given. -/
structure ParticipantRun (Op : Type) where
  participant : TransactionParticipant Op
  handler : Nat → Handler Op
  executed : List (Op × Bool)
  abortDone : Bool
  executedLate : Bool
  commits : List (Bool × List (Op × Bool))
  votes : List Vote

inductive ParticipantStep where
  | prepare (task : Nat)
  | commit (task : Nat)
  | abort (task : Nat)
  | resume (task : Nat) (ok : Bool)

namespace ParticipantRun

def start : ParticipantRun Op := ⟨.new, fun _ => .idle, [], false, false, [], []⟩

def setHandler (s : ParticipantRun Op) (task : Nat) (next : Handler Op) : ParticipantRun Op :=
  { s with handler := update s.handler task next }

def resume (ops : List Op) (s : ParticipantRun Op) (task : Nat) (ok : Bool) :
    Handler Op → ParticipantRun Op
  | .idle => s
  | .preparing =>
    { s.setHandler task .idle with participant := { s.participant with prepared := some ops }, votes := s.votes ++ [.yes] }
  | .committing (op :: rest) success =>
    { s.setHandler task (.committing rest (success && ok)) with
      executed := s.executed ++ [(op, ok)]
      executedLate := s.executedLate || s.abortDone }
  | .committing [] success =>
    { s.setHandler task .idle with
      participant := { s.participant with completed := some .committed }
      commits := s.commits ++ [(success, s.executed)] }
  | .aborting =>
    { s.setHandler task .idle with participant := { s.participant with completed := some .aborted }, abortDone := true }

/-- A request takes its first lock; a task that is busy takes no other. -/
def step (ops : List Op) (s : ParticipantRun Op) : ParticipantStep → ParticipantRun Op
  | .prepare task =>
    match s.handler task with
    | .idle =>
      match s.participant.previousVote with
      | some vote => { s with votes := s.votes ++ [vote] }
      | none => s.setHandler task .preparing
    | _ => s
  | .commit task =>
    match s.handler task with
    | .idle =>
      match s.participant.prepared with
      | none => { s with commits := s.commits ++ [(true, s.executed)] }
      | some taken => { s.setHandler task (.committing taken true) with participant := { s.participant with prepared := none } }
    | _ => s
  | .abort task =>
    match s.handler task with
    | .idle => { s.setHandler task .aborting with participant := { s.participant with prepared := none } }
    | _ => s
  | .resume task ok => s.resume ops task ok (s.handler task)

/-- The operations are executed at most once, in their order, and not after an ABORT has been
completed; a COMMIT is answered with success only if all have been applied. -/
structure Safe (ops : List Op) (s : ParticipantRun Op) : Prop where
  once : s.executed.map Prod.fst <+: ops
  inTime : s.executedLate = false
  truthful : ∀ answer ∈ s.commits, answer.1 = true → answer.2 = ops.map fun op => (op, true)

/-- A request comes when no other is under way, and a COMMIT finds the operations prepared, unless
they have all been applied. -/
def InTurn (ops : List Op) (s : ParticipantRun Op) : ParticipantStep → Prop
  | .prepare _ => ∀ task, s.handler task = .idle
  | .commit _ =>
    (∀ task, s.handler task = .idle) ∧ (s.participant.prepared.isSome ∨ s.executed = ops.map fun op => (op, true))
  | .abort _ => ∀ task, s.handler task = .idle
  | .resume _ _ => True

/-! ### One request at a time -/

def AllOrNothing (ops : List Op) (s : ParticipantRun Op) : Prop :=
  s.executed = [] ∨ s.participant.completed.isSome ∧ s.executed.map Prod.fst = ops

def During (ops : List Op) (s : ParticipantRun Op) : Handler Op → Prop
  | .idle =>
    (∀ taken, s.participant.prepared = some taken → taken = ops ∧ s.participant.completed = none ∧ s.executed = []) ∧
      AllOrNothing ops s
  | .preparing => s.participant.completed = none ∧ s.executed = []
  | .committing rest success =>
    s.participant.prepared = none ∧ s.participant.completed = none ∧ s.executed.map Prod.fst ++ rest = ops ∧
      success = s.executed.all Prod.snd
  | .aborting => s.participant.prepared = none ∧ AllOrNothing ops s

structure Inv (ops : List Op) (s : ParticipantRun Op) : Prop where
  active : ∃ task current, s.handler = update (fun _ => .idle) task current ∧ During ops s current
  abortDone : s.abortDone = true → s.participant.completed.isSome
  inTime : s.executedLate = false
  truthful : ∀ answer ∈ s.commits, answer.1 = true → answer.2 = ops.map fun op => (op, true)

variable {ops : List Op} {s : ParticipantRun Op}

theorem inv_start : Inv ops (start : ParticipantRun Op) where
  active := ⟨0, .idle, (update_eq_self 0 _).symm, nofun, .inl rfl⟩
  abortDone := nofun
  inTime := rfl
  truthful := nofun

theorem Inv.safe (h : Inv ops s) : Safe ops s := by
  obtain ⟨task, current, -, hduring⟩ := h.active
  refine ⟨?_, h.inTime, h.truthful⟩
  have hall : AllOrNothing ops s → s.executed.map Prod.fst <+: ops := by
    rintro (hempty | ⟨-, hall⟩)
    · exact hempty ▸ nil_prefix
    · exact hall ▸ prefix_rfl
  cases current with
  | idle => exact hall hduring.2
  | preparing => exact hall (.inl hduring.2)
  | committing rest success => exact ⟨rest, hduring.2.2.1⟩
  | aborting => exact hall hduring.2

theorem Inv.during_idle (h : Inv ops s) (hidle : ∀ task, s.handler task = .idle) :
    During ops s .idle := by
  obtain ⟨task, current, hhandler, hduring⟩ := h.active
  have hcurrent : current = .idle := by
    rw [← hidle task, hhandler, update_self]
  exact hcurrent ▸ hduring

theorem setHandler_of_idle (hidle : ∀ task, s.handler task = .idle) (task : Nat)
    (next : Handler Op) :
    (s.setHandler task next).handler = update (fun _ => .idle) task next := by
  rw [setHandler, show s.handler = fun _ => .idle from funext hidle]

theorem Inv.prepare (h : Inv ops s) (task : Nat) (hidle : ∀ task, s.handler task = .idle) :
    Inv ops (s.step ops (.prepare task)) := by
  obtain ⟨hprepared, hexecuted⟩ := h.during_idle hidle
  cases hvote : s.participant.previousVote with
  | some vote =>
    simp only [step, hidle task, hvote]
    exact ⟨⟨task, .idle, by rw [update_eq_self]; exact funext hidle, hprepared, hexecuted⟩, h.abortDone, h.inTime,
      h.truthful⟩
  | none =>
    have hcompleted : s.participant.completed = none := Option.map_eq_none_iff.mp hvote
    have hempty : s.executed = [] := by
      rcases hexecuted with hempty | ⟨hsome, -⟩
      · exact hempty
      · rw [hcompleted] at hsome
        cases hsome
    simp only [step, hidle task, hvote]
    exact ⟨⟨task, .preparing, setHandler_of_idle hidle _ _, hcompleted, hempty⟩, h.abortDone, h.inTime, h.truthful⟩

theorem Inv.commit (h : Inv ops s) (task : Nat) (hturn : InTurn ops s (.commit task)) :
    Inv ops (s.step ops (.commit task)) := by
  obtain ⟨hidle, hready⟩ := hturn
  obtain ⟨hprepared, hexecuted⟩ := h.during_idle hidle
  cases htaken : s.participant.prepared with
  | none =>
    rw [htaken] at hready
    have happlied := hready.resolve_left Bool.false_ne_true
    simp only [step, hidle task, htaken]
    refine ⟨⟨task, .idle, by rw [update_eq_self]; exact funext hidle, hprepared, hexecuted⟩, h.abortDone, h.inTime,
      fun answer hanswer htrue => ?_⟩
    rcases mem_append.mp hanswer with hold | hnew
    · exact h.truthful answer hold htrue
    · rw [mem_singleton.mp hnew]
      exact happlied
  | some taken =>
    obtain ⟨rfl, hcompleted, hempty⟩ := hprepared taken htaken
    simp only [step, hidle task, htaken]
    refine ⟨⟨task, .committing taken true, setHandler_of_idle hidle _ _, rfl, hcompleted, ?_, ?_⟩, h.abortDone, h.inTime,
      h.truthful⟩
    · show s.executed.map Prod.fst ++ taken = taken
      rw [hempty]
      rfl
    · show true = s.executed.all Prod.snd
      rw [hempty]
      rfl

theorem Inv.abort (h : Inv ops s) (task : Nat) (hidle : ∀ task, s.handler task = .idle) :
    Inv ops (s.step ops (.abort task)) := by
  simp only [step, hidle task]
  exact ⟨⟨task, .aborting, setHandler_of_idle hidle _ _, rfl, (h.during_idle hidle).2⟩, h.abortDone, h.inTime, h.truthful⟩

theorem executed_eq_of_all {executed : List (Op × Bool)} (hops : executed.map Prod.fst = ops)
    (hall : executed.all Prod.snd = true) : executed = ops.map fun op => (op, true) := by
  rw [← hops, map_map]
  conv_lhs => rw [← map_id executed]
  exact map_congr_left fun entry hentry => Prod.ext rfl (all_eq_true.mp hall entry hentry)

theorem Inv.resume (h : Inv ops s) (task : Nat) (ok : Bool) :
    Inv ops (s.step ops (.resume task ok)) := by
  obtain ⟨active, current, hhandler, hduring⟩ := h.active
  by_cases heq : task = active
  · subst heq
    have hcurrent : s.handler task = current := by rw [hhandler, update_self]
    have hset : ∀ next, (s.setHandler task next).handler = update (fun _ => .idle) task next := fun next => by
      simp [setHandler, hhandler]
    rw [step, hcurrent]
    cases current with
    | idle => exact h
    | preparing =>
      obtain ⟨hcompleted, hempty⟩ := hduring
      refine ⟨⟨task, .idle, hset _, fun taken htaken => ?_, .inl hempty⟩, h.abortDone, h.inTime, h.truthful⟩
      exact ⟨(Option.some.inj htaken).symm, hcompleted, hempty⟩
    | committing rest success =>
      obtain ⟨hprepared, hcompleted, hops, hsuccess⟩ := hduring
      cases rest with
      | nil =>
        rw [append_nil] at hops
        refine ⟨⟨task, .idle, hset _, fun taken htaken => ?_, .inr ⟨rfl, hops⟩⟩, fun _ => rfl, h.inTime,
          fun answer hanswer htrue => ?_⟩
        · exact absurd (hprepared.symm.trans htaken) nofun
        · rcases mem_append.mp hanswer with hold | hnew
          · exact h.truthful answer hold htrue
          · rw [mem_singleton.mp hnew] at htrue ⊢
            exact executed_eq_of_all hops (hsuccess.symm.trans htrue)
      | cons op rest =>
        have hnone : s.abortDone = false := by
          by_contra hdone
          have hsome := h.abortDone (Bool.not_eq_false _ ▸ hdone)
          rw [hcompleted] at hsome
          cases hsome
        refine ⟨⟨task, .committing rest (success && ok), hset _, hprepared, hcompleted, ?_, ?_⟩,
          h.abortDone, ?_, h.truthful⟩
        · show (s.executed ++ [(op, ok)]).map Prod.fst ++ rest = ops
          rw [map_append, append_assoc]
          exact hops
        · show (success && ok) = (s.executed ++ [(op, ok)]).all Prod.snd
          simp [← hsuccess]
        · show (s.executedLate || s.abortDone) = false
          rw [h.inTime, hnone]
          rfl
    | aborting =>
      obtain ⟨hprepared, hexecuted⟩ := hduring
      refine ⟨⟨task, .idle, hset _, fun taken htaken => ?_, hexecuted.imp_right fun hall => ⟨rfl, hall.2⟩⟩, fun _ => rfl,
        h.inTime, h.truthful⟩
      exact absurd (hprepared.symm.trans htaken) nofun
  · have hidle : s.handler task = .idle := by rw [hhandler, update_of_ne heq]
    rw [step, hidle]
    exact h

theorem Inv.step (h : Inv ops s) {label : ParticipantStep} (hturn : InTurn ops s label) :
    Inv ops (s.step ops label) := by
  cases label with
  | prepare task => exact h.prepare task hturn
  | commit task => exact h.commit task hturn
  | abort task => exact h.abort task hturn
  | resume task ok => exact h.resume task ok

/-- **Requests in turn.** In every run in which a request comes only when no other is under way, and
a COMMIT finds the operations prepared or already applied, they are executed at most once and not
after an ABORT has been completed, and a COMMIT is answered with success only if all of them have
been applied. -/
theorem safe_of_along (ops : List Op) {labels : List ParticipantStep}
    (h : Along (step ops) (InTurn ops) start labels) :
    Safe ops (run (step ops) start labels) :=
  (@run_invariant _ _ (step ops) (InTurn ops) (Inv ops) (fun _ _ hs hlabel => hs.step hlabel) _ inv_start labels
    h).safe

def sentTwice : List ParticipantStep :=
  [.prepare 0, .resume 0 true, .commit 0, .resume 0 true, .resume 0 true, .resume 0 true, .prepare 0, .commit 0]

theorem safe_sentTwice :
    (run (step ["x", "y"]) start sentTwice).commits.map Prod.fst = [true, true] ∧
      Safe ["x", "y"] (run (step ["x", "y"]) start sentTwice) := by
  refine ⟨rfl, safe_of_along ["x", "y"] ⟨?_, trivial, ⟨?_, .inl rfl⟩, trivial, trivial, trivial, ?_, ⟨?_, .inr rfl⟩, trivial⟩⟩ <;>
    rintro (_ | _) <;> rfl

/-- **Requests in the gaps.** A second PREPARE that comes while a COMMIT executes the operations
stores them again, and the next COMMIT executes them again. An ABORT that is completed between a
COMMIT's taking the operations and executing them does not stop it. A COMMIT that comes while
another has taken the operations is answered with success before any is executed. -/
theorem unsafe_in_the_gaps : (run (step ["x"]) start
        [.prepare 0, .resume 0 true, .commit 0, .prepare 1, .resume 0 true, .resume 0 true, .resume 1 true, .commit 1,
          .resume 1 true]).executed = [("x", true), ("x", true)] ∧
      (run (step ["x"]) start
        [.prepare 0, .resume 0 true, .commit 0, .abort 1, .resume 1 true, .resume 0 true]).executedLate = true ∧
      (run (step ["x"]) start [.prepare 0, .resume 0 true, .commit 0, .commit 1]).commits = [(true, [])] :=
  ⟨rfl, rfl, rfl⟩

end ParticipantRun
end Nexora.Cluster
