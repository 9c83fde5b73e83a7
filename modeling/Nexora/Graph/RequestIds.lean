import Nexora.Graph.Dedup

/-!
# Who draws request ids

A node recognises a retried request by its number alone. The numbers come from several counters of
one process, each of which starts at one, or from the caller. As long as each node is addressed by
one of them only, no mutation is taken for another.
-/

namespace Nexora
open Lib List Function Prod

inductive Issuer where
  | writeBatch
  | cypher
  | graphStreaming
  | batchHandler
deriving DecidableEq

/-- A mutation that has been given a number, and the counter it is from, if it is from one. -/
structure Issued where
  issuer : Option Issuer
  qid : NexoraId
  requestId : Nat

/-- One process with its nodes. `issued` and `answers` are the history of the numbers given out and
of the nodes' answers. -/
structure Process where
  counters : Issuer → Nat
  inFlight : List (NexoraId × MutationRequest)
  nodes : NexoraId → NodeTask
  issued : List Issued
  answers : List ((NexoraId × Nat) × Answer)

inductive ProcessStep where
  | draw (issuer : Issuer) (qid : NexoraId) (operations : List (MutationOp × Option EventTime))
    (eventTime : Option EventTime)
      (awaitDurable : Bool)
  | call (qid : NexoraId) (request : MutationRequest)
  | deliver (index : Nat) (logged : Bool)
  | command (qid : NexoraId) (operation : MutationOp) (logged : Bool)
  | wake (qid : NexoraId) (now : EventTime) (state : NodeState) (recoveredMaxEventTime : Option EventTime)

namespace Process

def init (nodes : NexoraId → NodeState) (now : EventTime) : Process where
  counters := fun _ => 1
  inFlight := []
  nodes := fun qid => .spawnWithFullState now (nodes qid) none
  issued := []
  answers := []

def send (s : Process) (issuer : Option Issuer) (qid : NexoraId) (request : MutationRequest) :
    Process :=
  { s with
    inFlight := s.inFlight ++ [(qid, request)]
    issued := s.issued ++ [⟨issuer, qid, request.requestId⟩] }

/-- `fetch_add` wraps around; a node that is woken has any state and an empty memory. -/
def step (s : Process) : ProcessStep → Process
  | .draw issuer qid operations eventTime awaitDurable =>
    { s.send (some issuer) qid ⟨s.counters issuer, operations, eventTime, awaitDurable⟩ with
      counters := update s.counters issuer ((s.counters issuer + 1) % 2 ^ 64) }
  | .call qid request => s.send none qid request
  | .deliver index logged =>
    match s.inFlight[index]? with
    | none => s
    | some (qid, request) =>
      let result := (s.nodes qid).answerMutate request logged
      { s with
        inFlight := s.inFlight.eraseIdx index
        nodes := update s.nodes qid result.1
        answers := s.answers ++ [((qid, request.requestId), result.2)] }
  | .command qid operation logged =>
    let d := (s.nodes qid).draft [(operation, none)] none
    { s with nodes := update s.nodes qid (if logged then (s.nodes qid).install d else (s.nodes qid).drafted d) }
  | .wake qid now state recoveredMaxEventTime =>
    { s with nodes := update s.nodes qid (.spawnWithFullState now state recoveredMaxEventTime) }

def addresses (s : Process) : List (NexoraId × Nat) := s.issued.map fun i => (i.qid, i.requestId)

/-- No two mutations of a node have the same number, and none has been answered with the receipt of
another. -/
def NoFalseDedup (s : Process) : Prop :=
  s.addresses.Nodup ∧ ∀ answer ∈ s.answers, ∀ receipt, answer.2 ≠ .cached receipt

/-- All mutations of the node so far are from this counter, which has not wrapped around; a number
that a caller gives is new among those of the node, which are all given by callers. -/
def StepOk (s : Process) : ProcessStep → Prop
  | .draw issuer qid _ _ _ =>
    (∀ i ∈ s.issued, i.qid = qid → i.issuer = some issuer) ∧ s.counters issuer + 1 < 2 ^ 64
  | .call qid request => ∀ i ∈ s.issued, i.qid = qid → i.issuer = none ∧ i.requestId ≠ request.requestId
  | _ => True

/-! ### One step -/

structure Inv (s : Process) : Prop where
  fresh : s.addresses.Nodup
  drawn : ∀ i ∈ s.issued, ∀ issuer, i.issuer = some issuer → i.requestId < s.counters issuer
  perm : ((s.inFlight.map fun m => (m.1, m.2.requestId)) ++ s.answers.map fst).Perm s.addresses
  remembered : ∀ qid, ∀ requestId ∈ (s.nodes qid).cachedIds, (qid, requestId) ∈ s.answers.map fst
  answered : ∀ answer ∈ s.answers, ∀ receipt, answer.2 ≠ .cached receipt

theorem inv_init (nodes : NexoraId → NodeState) (now : EventTime) : (init nodes now).Inv :=
  ⟨nodup_nil, fun _ h => absurd h not_mem_nil, Perm.refl _, fun _ _ h => absurd h not_mem_nil,
    fun _ h => absurd h not_mem_nil⟩

variable {s : Process}
variable {qid : NexoraId} {request : MutationRequest} {task : NodeTask}

theorem Inv.send (h : s.Inv) {issuer : Option Issuer}
    (hnew : (qid, request.requestId) ∉ s.addresses) {counters : Issuer → Nat}
    (hcounters : ∀ i, s.counters i ≤ counters i)
    (hissuer : ∀ i, issuer = some i → request.requestId < counters i) :
    Inv { s.send issuer qid request with counters := counters } where
  fresh := by
    simp only [addresses, Process.send, map_append, map_singleton]
    refine nodup_append.mpr ⟨h.fresh, nodup_singleton _, fun a ha b hb => ?_⟩
    rw [mem_singleton] at hb
    rintro rfl
    exact hnew (hb ▸ ha)
  drawn i hi other hother := by
    rcases mem_append.mp hi with hi | hi
    · exact lt_of_lt_of_le (h.drawn i hi other hother) (hcounters other)
    · rw [mem_singleton] at hi
      subst hi
      exact hissuer other hother
  perm := by
    simp only [addresses, Process.send, map_append, map_singleton, append_assoc]
    have hswap : ([(qid, request.requestId)] ++ s.answers.map fst).Perm
        (s.answers.map fst ++ [(qid, request.requestId)]) := perm_append_comm
    refine (hswap.append_left _).trans ?_
    rw [← append_assoc]
    exact h.perm.append_right _
  remembered := h.remembered
  answered := h.answered

theorem Inv.update_node (h : s.Inv)
    (htask : ∀ requestId ∈ task.cachedIds, requestId ∈ (s.nodes qid).cachedIds) :
    Inv { s with nodes := update s.nodes qid task } where
  fresh := h.fresh
  drawn := h.drawn
  perm := h.perm
  remembered other requestId hmem := by
    by_cases heq : other = qid
    · subst heq
      simp only [update_self] at hmem
      exact h.remembered other requestId (htask requestId hmem)
    · simp only [update_of_ne heq] at hmem
      exact h.remembered other requestId hmem
  answered := h.answered

theorem mem_cachedIds_rememberReceipt {requestId other : Nat} {receipt : CommitReceipt}
    (h : other ∈ (task.rememberReceipt requestId receipt).cachedIds) :
    other ∈ task.cachedIds ∨ other = requestId := by
  obtain ⟨entry, hentry, rfl⟩ := mem_map.mp h
  rcases NodeTask.mem_of_mem_rememberReceipt hentry with hentry | ⟨hid, -⟩
  · exact Or.inl (mem_map_of_mem hentry)
  · exact Or.inr hid

theorem answerMutate_of_not_mem (hnot : request.requestId ∉ task.cachedIds) (logged : Bool) :
    (∀ receipt, (task.answerMutate request logged).2 ≠ .cached receipt) ∧
      ∀ requestId ∈ (task.answerMutate request logged).1.cachedIds,
        requestId ∈ task.cachedIds ∨ requestId = request.requestId := by
  rcases task.answerMutate_cases request logged with ⟨entry, hfind, hanswer⟩ | ⟨-, hanswer⟩ | ⟨-, hanswer⟩
  · obtain ⟨hentry, hid⟩ := NodeTask.mem_of_findReceipt hfind
    exact absurd (mem_map.mpr ⟨entry, hentry, hid⟩) hnot
  · rw [hanswer]
    exact ⟨fun receipt => nofun, fun requestId hmem => mem_cachedIds_rememberReceipt hmem⟩
  · rw [hanswer]
    exact ⟨fun receipt => nofun, fun requestId hmem => Or.inl hmem⟩

theorem Inv.deliver (h : s.Inv) (index : Nat) (logged : Bool) :
    (s.step (.deliver index logged)).Inv := by
  cases hget : s.inFlight[index]? with
  | none =>
    simp only [step, hget]
    exact h
  | some m =>
    obtain ⟨qid, request⟩ := m
    obtain ⟨hlt, hm⟩ := List.getElem?_eq_some_iff.mp hget
    have hperm : ((qid, request) :: s.inFlight.eraseIdx index).Perm s.inFlight := by
      rw [← hm]
      exact getElem_cons_eraseIdx_perm hlt
    have hpairs := (hperm.map fun m => (m.1, m.2.requestId)).append_right (s.answers.map fst)
    -- The number is still under way, so the node has not answered it and does not remember it.
    have hnew : (qid, request.requestId) ∉ s.answers.map fst := by
      intro hmem
      have hnodup := (hpairs.trans h.perm).nodup_iff.mpr h.fresh
      exact (nodup_cons.mp hnodup).1 (mem_append_right _ hmem)
    have hmoved : (((s.inFlight.eraseIdx index).map fun m => (m.1, m.2.requestId)) ++
        (s.answers.map fst ++ [(qid, request.requestId)])).Perm s.addresses := by
      refine Perm.trans ?_ (hpairs.trans h.perm)
      rw [← append_assoc]
      exact perm_append_singleton _ _
    have hnot : request.requestId ∉ (s.nodes qid).cachedIds := fun hmem => hnew (h.remembered qid _ hmem)
    obtain ⟨hanswer, hcached⟩ := answerMutate_of_not_mem hnot logged
    simp only [step, hget]
    refine ⟨h.fresh, h.drawn, by rw [map_append]; exact hmoved, fun other requestId hmem => ?_, fun answer hmem => ?_⟩
    · rw [map_append, mem_append]
      by_cases heq : other = qid
      · subst heq
        simp only [update_self] at hmem
        rcases hcached requestId hmem with hmem | rfl
        · exact Or.inl (h.remembered other requestId hmem)
        · exact Or.inr (mem_singleton_self _)
      · simp only [update_of_ne heq] at hmem
        exact Or.inl (h.remembered other requestId hmem)
    · rcases mem_append.mp hmem with hmem | hmem
      · exact h.answered answer hmem
      · rw [mem_singleton.mp hmem]
        exact hanswer

theorem Inv.step (h : s.Inv) {label : ProcessStep} (hok : s.StepOk label) : (s.step label).Inv := by
  cases label with
  | draw issuer qid operations eventTime awaitDurable =>
    obtain ⟨hissuer, hbelow⟩ := hok
    have hnext := Nat.mod_eq_of_lt hbelow
    simp only [Process.step, hnext]
    refine h.send ?_ (fun other => ?_) (fun other hother => ?_)
    · -- Every earlier number of the node is from the same counter, hence smaller.
      intro hmem
      obtain ⟨i, hi, heq⟩ := mem_map.mp hmem
      obtain ⟨hqid, hid⟩ := Prod.mk.inj heq
      have hlt := h.drawn i hi issuer (hissuer i hi hqid)
      exact absurd hid (ne_of_lt hlt)
    · by_cases heq : other = issuer
      · subst heq
        rw [update_self]
        omega
      · rw [update_of_ne heq]
    · cases hother
      rw [update_self]
      exact Nat.lt_succ_self _
  | call qid request =>
    refine h.send ?_ (fun _ => le_rfl) (fun _ hother => nomatch hother)
    intro hmem
    obtain ⟨i, hi, heq⟩ := mem_map.mp hmem
    obtain ⟨hqid, hid⟩ := Prod.mk.inj heq
    exact (hok i hi hqid).2 hid
  | deliver index logged => exact h.deliver index logged
  | command qid operation logged =>
    refine h.update_node fun requestId hmem => ?_
    cases logged <;> exact hmem
  | wake qid now state recoveredMaxEventTime => exact h.update_node fun requestId hmem => absurd hmem not_mem_nil

/-- **No false deduplication.** In every interleaving in which each node is addressed through one
counter only, and no counter wraps around, no two mutations of a node have the same number and none
is answered with the receipt of another. -/
theorem noFalseDedup_of_along (nodes : NexoraId → NodeState) (now : EventTime)
    {steps : List ProcessStep} (h : Along step StepOk (init nodes now) steps) :
    (run step (init nodes now) steps).NoFalseDedup := by
  have hstep : ∀ (s : Process) (label : ProcessStep), s.Inv → s.StepOk label → (s.step label).Inv :=
    fun s label hinv hok => hinv.step hok
  have hinv := run_invariant hstep (inv_init nodes now) h
  exact ⟨hinv.fresh, hinv.answered⟩

def drawLabel (issuer : Issuer) (label : Symbol) : ProcessStep :=
  .draw issuer ⟨[1]⟩ [(.addLabel label, none)] none true

/-- Two labels from one counter are both applied. -/
theorem noFalseDedup_one_counter :
    let s := run step (init (fun _ => .empty) 10)
      [drawLabel .cypher "A", drawLabel .cypher "B", .deliver 1 true, .deliver 0 true]
    s.answers = [((⟨[1]⟩, 2), .applied ⟨11, 1, 0⟩), ((⟨[1]⟩, 1), .applied ⟨12, 1, 0⟩)] ∧
      s.NoFalseDedup := by
  refine ⟨by decide, noFalseDedup_of_along _ _ ⟨⟨?_, by decide⟩, ⟨?_, by decide⟩, trivial, trivial, trivial⟩⟩
  · exact fun i hi => absurd hi not_mem_nil
  · intro i hi _
    rw [mem_singleton.mp hi]

/-- A Cypher statement and a graph-streaming mutation each draw number one: the second label is not
added. -/
theorem dedup_two_counters :
    let s := run step (init (fun _ => .empty) 10)
      [drawLabel .cypher "A", .deliver 0 true, drawLabel .graphStreaming "B", .deliver 0 true]
    s.answers = [((⟨[1]⟩, 1), .applied ⟨11, 1, 0⟩), ((⟨[1]⟩, 1), .cached ⟨11, 1, 0⟩)] ∧
      (s.nodes ⟨[1]⟩).state.labels = {"A"} ∧ ¬ s.NoFalseDedup := by
  refine ⟨by decide, by decide, fun h => ?_⟩
  exact h.2 ((⟨[1]⟩, 1), .cached ⟨11, 1, 0⟩) (by decide) ⟨11, 1, 0⟩ rfl

end Process
end Nexora
