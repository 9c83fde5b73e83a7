import Nexora.Value
import Mathlib.Data.List.Dedup

/-!
# Path joins

A path join expands the partial paths hop by hop and then fetches properties, with many calls in
flight (`distributed_query/path.rs`). Whenever 64 are, it waits for one of them, and there a failure
is passed over. So the first calls to be done, all but 63, may fail without notice, and the others
may not.
-/

namespace Nexora.PathJoin
open Lib List
variable {ε α β : Type}

/-- The next of the calls in flight that is done, which may be any. -/
def takeNext (place : Nat) : List α → Option (α × List α)
  | [] => none
  | call :: calls =>
    some ((call :: calls).getD (place % (calls.length + 1)) call,
      (call :: calls).eraseIdx (place % (calls.length + 1)))

/-- So many calls that are still in flight. -/
def drain : Nat → List (Except ε α) → List Nat → List α → Except ε (List α)
  | 0, _, _, done => .ok done
  | left + 1, inFlight, order, done =>
    match takeNext (order.headD 0) inFlight with
    | none => .ok done
    | some (.ok a, inFlight) => drain left inFlight order.tail (done ++ [a])
    | some (.error e, _) => .error e

/-- One call after the other is put in flight, fewer than `bound` at a time. -/
def gather (bound : Nat) :
    List (Except ε α) → List (Except ε α) → List Nat → List α → Except ε (List α)
  | [], inFlight, order, done => drain inFlight.length inFlight order done
  | call :: calls, inFlight, order, done =>
    if inFlight.length + 1 < bound then gather bound calls (inFlight ++ [call]) order done
    else match takeNext (order.headD 0) (inFlight ++ [call]) with
      | none => gather bound calls [] order done
      | some (.ok a, inFlight) => gather bound calls inFlight order.tail (done ++ [a])
      | some (.error _, inFlight) => gather bound calls inFlight order.tail done

/-! ### The calls in the order in which they are done -/

def arrivals : Nat → List α → List Nat → List α
  | 0, _, _ => []
  | left + 1, inFlight, order =>
    match takeNext (order.headD 0) inFlight with
    | none => []
    | some (call, inFlight) => call :: arrivals left inFlight order.tail

def completions (bound : Nat) : List α → List α → List Nat → List α
  | [], inFlight, order => arrivals inFlight.length inFlight order
  | call :: calls, inFlight, order =>
    if inFlight.length + 1 < bound then completions bound calls (inFlight ++ [call]) order
    else match takeNext (order.headD 0) (inFlight ++ [call]) with
      | none => completions bound calls [] order
      | some (next, inFlight) => next :: completions bound calls inFlight order.tail

theorem takeNext_perm {place : Nat} {call : α} {calls rest : List α}
    (h : takeNext place calls = some (call, rest)) : (call :: rest).Perm calls := by
  cases calls with
  | nil => cases h
  | cons first calls =>
    have hlt : place % (calls.length + 1) < (first :: calls).length :=
      Nat.mod_lt _ (Nat.succ_pos _)
    cases h
    rw [getD_eq_getElem?_getD, getElem?_eq_getElem hlt]
    exact getElem_cons_eraseIdx_perm hlt

theorem takeNext_append_ne_none (place : Nat) (calls : List α) (call : α) :
    takeNext place (calls ++ [call]) ≠ none := by
  cases calls <;> simp [takeNext]

variable {order : List Nat}

private theorem arrivals_perm {left : Nat} {calls : List α}
    (hleft : calls.length = left) : (arrivals left calls order).Perm calls := by
  fun_induction arrivals left calls order with
  | case1 calls order => rw [eq_nil_of_length_eq_zero hleft]
  | case2 left calls order hnext => cases calls <;> simp_all [takeNext]
  | case3 left calls order call rest hnext ih =>
    have hperm := takeNext_perm hnext
    exact ((ih (by simpa [hleft] using hperm.length_eq)).cons call).trans hperm

private theorem completions_perm (bound : Nat) (calls inFlight : List α) (order : List Nat) :
    (completions bound calls inFlight order).Perm (inFlight ++ calls) := by
  fun_induction completions bound calls inFlight order with
  | case1 inFlight order => simpa using arrivals_perm rfl
  | case2 call calls inFlight order hroom ih => simpa using ih
  | case3 call calls inFlight order hfull hnext => exact absurd hnext (takeNext_append_ne_none _ _ _)
  | case4 call calls inFlight order hfull next rest hnext ih =>
    refine (ih.cons next).trans ?_
    rw [append_cons inFlight]
    exact (takeNext_perm hnext).append_right calls

private theorem drain_eq_ok_iff {left : Nat} {calls : List (Except ε α)}
    {done result : List α} : drain left calls order done = .ok result ↔
      (∀ call ∈ arrivals left calls order, call.isOk = true) ∧
        done ++ (arrivals left calls order).filterMap Except.toOption = result := by
  induction left generalizing calls order done with
  | zero => simp [drain, arrivals]
  | succ left ih =>
    rw [drain, arrivals]
    cases takeNext (order.headD 0) calls with
    | none => simp
    | some next =>
      obtain ⟨e | a, rest⟩ := next
      · simp [Except.isOk, Except.toBool]
      · simp [ih, Except.isOk, Except.toBool, Except.toOption]

/-- Only the calls that are done when fewer than the bound are left have to succeed. -/
theorem gather_eq_ok_iff {bound : Nat} {calls inFlight : List (Except ε α)}
    {done result : List α} (hbound : inFlight.length < bound) :
    gather bound calls inFlight order done = .ok result ↔
      (∀ call ∈ (completions bound calls inFlight order).drop
          (inFlight.length + calls.length + 1 - bound), call.isOk = true) ∧
        done ++ (completions bound calls inFlight order).filterMap Except.toOption = result := by
  induction calls generalizing inFlight order done with
  | nil =>
    have hnone : inFlight.length + 0 + 1 - bound = 0 := by omega
    rw [length_nil, hnone, drop_zero]
    exact drain_eq_ok_iff
  | cons call calls ih =>
    rw [gather, completions]
    split
    · next hroom =>
      have hlength : (inFlight ++ [call]).length + calls.length =
          inFlight.length + (call :: calls).length := by
        rw [length_append, length_cons, length_cons, length_nil]
        omega
      rw [ih (by simpa using hroom), hlength]
    · next hfull =>
      cases hnext : takeNext (order.headD 0) (inFlight ++ [call]) with
      | none => exact absurd hnext (takeNext_append_ne_none _ _ _)
      | some next =>
        obtain ⟨next, rest⟩ := next
        have hrest : rest.length = inFlight.length := by
          simpa using (takeNext_perm hnext).length_eq
        have hdrop : inFlight.length + (call :: calls).length + 1 - bound =
            inFlight.length + calls.length + 1 - bound + 1 := by
          rw [length_cons]
          omega
        rw [hdrop]
        cases next with
        | error e => simp [ih (hrest ▸ hbound), hrest, filterMap_cons, Except.toOption]
        | ok a => simp [ih (hrest ▸ hbound), hrest, Except.toOption]

/-- The 64 calls in flight are the bound of `path.rs`. -/
def gather64 (calls : List (Except ε α)) (order : List Nat) : Except ε (List α) :=
  gather 64 calls [] order []

/-- A call that fails after all but 63 calls are done. -/
def LateFailure (calls : List (Except ε α)) (order : List Nat) : Prop :=
  ∃ call ∈ (completions 64 calls [] order).drop (calls.length - 63), call.isOk = false

/-- The values of the calls that succeed, in the order in which they are done. -/
def succeeded (calls : List (Except ε α)) (order : List Nat) : List α :=
  (completions 64 calls [] order).filterMap Except.toOption

theorem gather64_eq_ok_iff {calls : List (Except ε α)} {result : List α} :
    gather64 calls order = .ok result ↔
      ¬ LateFailure calls order ∧ succeeded calls order = result := by
  rw [gather64, gather_eq_ok_iff (Nat.zero_lt_succ 63), LateFailure, succeeded]
  have hdrop : ([] : List (Except ε α)).length + calls.length + 1 - 64 = calls.length - 63 := by
    rw [length_nil]
    omega
  rw [hdrop]
  simp

theorem succeeded_perm (calls : List (Except ε α)) (order : List Nat) :
    (succeeded calls order).Perm (calls.filterMap Except.toOption) :=
  (completions_perm 64 calls [] order).filterMap _

/-! ### The join -/

abbrev Partial := List NexoraId

abbrev Props := List (String × Json)

/-- The answers of the owners. The expansions of two partial paths are two calls, also where the
paths end in the same node. -/
structure Router (ε Hop : Type) where
  scanNodeIds : List String → Except ε (List NexoraId)
  expandHop : Partial → Hop → Except ε (List NexoraId)
  fetchProps : NexoraId → Except ε Props

structure PathNode where
  var : Option String
  labels : List String

structure RelProjection where
  var : String
  property : Option String

structure PathJoinSpec (Hop : Type) where
  nodes : List PathNode
  hops : List Hop
  projections : List RelProjection

variable {ε Hop : Type} (router : Router ε Hop) (orders : Nat → List Nat)

/-- The position of a variable, the last one where several nodes have it. -/
def varPos (nodes : List PathNode) (var : String) : Option Nat :=
  ((range nodes.length).filter fun i => (nodes[i]?.bind PathNode.var) = some var).getLast?

def allowedIds (node : Option PathNode) : Except ε (Option (List NexoraId)) :=
  match node.elim [] PathNode.labels with
  | [] => .ok none
  | labels => (router.scanNodeIds labels).map some

def extensions (allowed : Option (List NexoraId)) (path : Partial) (ends : List NexoraId) :
    List Partial :=
  (ends.filter fun e => allowed.all fun ids => e ∈ ids).map fun e => path ++ [e]

/-- The calls of one hop. -/
def expansions (allowed : Option (List NexoraId)) (hop : Hop) (partials : List Partial) :
    List (Except ε (List Partial)) :=
  partials.map fun path => (router.expandHop path hop).map (extensions allowed path)

def expandHops (nodes : List PathNode) :
    Nat → List Hop → List Partial → Except ε (List Partial)
  | _, [], partials => pure partials
  | h, hop :: hops, partials => do
    let allowed ← allowedIds router nodes[h + 1]?
    let next ← gather64 (expansions router allowed hop partials) (orders h)
    if next.flatten = [] then pure [] else expandHops nodes (h + 1) hops next.flatten

def toFetch (spec : PathJoinSpec Hop) (partials : List Partial) : List NexoraId :=
  let needed := (spec.projections.filter fun proj => proj.property.isSome).filterMap fun proj =>
    varPos spec.nodes proj.var
  (partials.flatMap fun path => needed.filterMap fun pos => path[pos]?).dedup

/-- The calls of the property fetch. -/
def fetches (ids : List NexoraId) : List (Except ε (NexoraId × Props)) :=
  ids.map fun id => (router.fetchProps id).map fun p => (id, p)

/-- The paths and the properties, fetched in any order, of which the rows are made. -/
def executePathJoin (arrange : List NexoraId → List NexoraId) (spec : PathJoinSpec Hop) :
    Except ε (List Partial × List (NexoraId × Props)) := do
  let sources ← router.scanNodeIds (spec.nodes.head?.elim [] PathNode.labels)
  let partials ← expandHops router orders spec.nodes 0 spec.hops (sources.map fun s => [s])
  let props ← gather64 (fetches router (arrange (toFetch spec partials))) (orders spec.hops.length)
  return (partials, props)

/-! ### Which failures are reported -/

/-- The ids a hop may arrive at, and every id where the scan for them fails. -/
def allowedAt (nodes : List PathNode) (h : Nat) : Option (List NexoraId) :=
  (allowedIds router nodes[h + 1]?).toOption.getD none

/-- The partial paths after a hop, in the order in which the expansions are done. One that fails
adds none. -/
def nextPartials (nodes : List PathNode) (h : Nat) (hop : Hop) (partials : List Partial) :
    List Partial :=
  (succeeded (expansions router (allowedAt router nodes h) hop partials) (orders h)).flatten

/-- The partial paths after all hops. -/
def finalPartials (nodes : List PathNode) : Nat → List Hop → List Partial → List Partial
  | _, [], partials => partials
  | h, hop :: hops, partials =>
    finalPartials nodes (h + 1) hops (nextPartials router orders nodes h hop partials)

/-- A hop to which partial paths are left fails: the scan for the labels at its end does, or the
expansion of one of the last 63 partial paths to be done. -/
def HopFails (nodes : List PathNode) : Nat → List Hop → List Partial → Prop
  | _, [], _ => False
  | h, hop :: hops, partials =>
    (allowedIds router nodes[h + 1]?).isOk = false ∨
    LateFailure (expansions router (allowedAt router nodes h) hop partials) (orders h) ∨
    nextPartials router orders nodes h hop partials ≠ [] ∧
      HopFails nodes (h + 1) hops (nextPartials router orders nodes h hop partials)

variable {nodes : List PathNode} {h : Nat} {hops : List Hop}

private theorem finalPartials_nil : finalPartials router orders nodes h hops [] = [] := by
  induction hops generalizing h with
  | nil => rfl
  | cons hop hops ih => exact ih

theorem bind_eq_ok_iff {x : Except ε α} {f : α → Except ε β} {b : β} :
    (x >>= f) = .ok b ↔ ∃ a, x = .ok a ∧ f a = .ok b := by
  cases x with
  | error e => simp [bind, Except.bind]
  | ok a => simp [bind, Except.bind]

private theorem exists_error_iff {x : Except ε α} : (∃ e, x = .error e) ↔ ∀ a, x ≠ .ok a := by
  cases x <;> simp

theorem expandHops_eq_ok_iff {partials result : List Partial} :
    expandHops router orders nodes h hops partials = .ok result ↔
      ¬ HopFails router orders nodes h hops partials ∧
        finalPartials router orders nodes h hops partials = result := by
  induction hops generalizing h partials with
  | nil => simp [expandHops, HopFails, finalPartials, pure, Except.pure]
  | cons hop hops ih =>
    rw [expandHops, HopFails, finalPartials, bind_eq_ok_iff]
    cases hallowed : allowedIds router nodes[h + 1]? with
    | error e => simp [Except.isOk, Except.toBool]
    | ok allowed =>
      have hat : allowedAt router nodes h = allowed := by
        rw [allowedAt, hallowed]
        rfl
      simp only [Except.ok.injEq, exists_eq_left', bind_eq_ok_iff, gather64_eq_ok_iff,
        nextPartials, hat, and_assoc, exists_and_left]
      by_cases hnil : (succeeded (expansions router allowed hop partials) (orders h)).flatten = []
      · simp [hnil, finalPartials_nil, Except.isOk, Except.toBool, pure, Except.pure]
      · simp [hnil, ih, Except.isOk, Except.toBool, and_assoc]

theorem executePathJoin_eq_ok_iff {arrange : List NexoraId → List NexoraId}
    {spec : PathJoinSpec Hop} {partials : List Partial} {props : List (NexoraId × Props)} :
    executePathJoin router orders arrange spec = .ok (partials, props) ↔
      ∃ sources, router.scanNodeIds (spec.nodes.head?.elim [] PathNode.labels) = .ok sources ∧
        (¬ HopFails router orders spec.nodes 0 spec.hops (sources.map fun s => [s]) ∧
          finalPartials router orders spec.nodes 0 spec.hops (sources.map fun s => [s]) =
            partials) ∧
        ¬ LateFailure (fetches router (arrange (toFetch spec partials)))
            (orders spec.hops.length) ∧
          succeeded (fetches router (arrange (toFetch spec partials)))
            (orders spec.hops.length) = props := by
  simp only [executePathJoin, bind_eq_ok_iff, expandHops_eq_ok_iff, gather64_eq_ok_iff]
  refine exists_congr fun sources => and_congr_right fun _ => ?_
  constructor
  · rintro ⟨found, hfound, fetched, hfetched, hresult⟩
    cases hresult
    exact ⟨hfound, hfetched⟩
  · rintro ⟨hfound, hfetched⟩
    exact ⟨partials, hfound, props, hfetched, rfl⟩

/-- **Which failures a path join reports**: those of the scans, of the last 63 expansions of a hop
that are done, and of the last 63 fetches that are done. Where at most 63 paths or ids are expanded
or fetched at once these are all. -/
theorem executePathJoin_error_iff (arrange : List NexoraId → List NexoraId)
    (spec : PathJoinSpec Hop) :
    (∃ e, executePathJoin router orders arrange spec = .error e) ↔
      ∀ sources, router.scanNodeIds (spec.nodes.head?.elim [] PathNode.labels) = .ok sources →
        let starts := sources.map fun s => [s]
        HopFails router orders spec.nodes 0 spec.hops starts ∨
        LateFailure (fetches router (arrange (toFetch spec
          (finalPartials router orders spec.nodes 0 spec.hops starts))))
          (orders spec.hops.length) := by
  rw [exists_error_iff]
  constructor
  · intro hfails sources hsources
    by_contra hok
    obtain ⟨hhops, hfetches⟩ := not_or.mp hok
    exact hfails (_, _) ((executePathJoin_eq_ok_iff router orders).mpr
      ⟨sources, hsources, ⟨hhops, rfl⟩, hfetches, rfl⟩)
  · rintro hfails ⟨partials, props⟩ hok
    obtain ⟨sources, hsources, ⟨hhops, rfl⟩, hfetches, -⟩ :=
      (executePathJoin_eq_ok_iff router orders).mp hok
    exact (hfails sources hsources).elim hhops hfetches

/-- So many sources, of which the first cannot be expanded. -/
def oneFailure (count : Nat) : Router String Unit where
  scanNodeIds _ := .ok ((range count).map fun i => ⟨[UInt8.ofNat i]⟩)
  expandHop path _ := if path = [⟨[0]⟩] then .error "timeout" else .ok []
  fetchProps _ := .ok []

def oneHop : PathJoinSpec Unit := ⟨[⟨some "a", []⟩, ⟨some "b", []⟩], [()], [⟨"b", none⟩]⟩

/-- With 64 sources the failure that comes first is passed over, and the one that comes last is
not. -/
theorem executePathJoin_ok_of_failed_call :
    ((oneFailure 64).expandHop [⟨[0]⟩] ()).isOk = false ∧
      (executePathJoin (oneFailure 64) (fun _ => []) id oneHop).isOk = true ∧
      (executePathJoin (oneFailure 64) (fun _ => [1]) id oneHop).isOk = false := by
  decide +kernel

/-! ### The paths that are found -/

/-- The paths, with one expansion after the other. One that fails adds none. -/
def pathsFrom (nodes : List PathNode) : Nat → List Hop → List Partial → List Partial
  | _, [], partials => partials
  | h, hop :: hops, partials =>
    let allowed := (allowedIds router nodes[h + 1]?).toOption.getD none
    pathsFrom nodes (h + 1) hops (partials.filterMap fun path =>
      ((router.expandHop path hop).map (extensions allowed path)).toOption).flatten

theorem pathsFrom_perm {partials partials' : List Partial} (hperm : partials.Perm partials') :
    (pathsFrom router nodes h hops partials).Perm (pathsFrom router nodes h hops partials') := by
  induction hops generalizing h partials partials' with
  | nil => exact hperm
  | cons hop hops ih => exact ih (hperm.filterMap _).flatten

private theorem finalPartials_perm (partials : List Partial) :
    (finalPartials router orders nodes h hops partials).Perm
      (pathsFrom router nodes h hops partials) := by
  induction hops generalizing h partials with
  | nil => exact .rfl
  | cons hop hops ih =>
    refine (ih _).trans (pathsFrom_perm router ?_)
    have hnext := (succeeded_perm (expansions router (allowedAt router nodes h) hop partials)
      (orders h)).flatten
    rw [expansions, filterMap_map] at hnext
    exact hnext

/-- **A path join finds what one call after the other finds**, in whatever order the calls are done:
the paths whose expansions all succeed, each as often, and the properties that can be fetched. -/
theorem executePathJoin_perm (arrange : List NexoraId → List NexoraId)
    (harrange : ∀ ids, (arrange ids).Perm ids) (spec : PathJoinSpec Hop) {partials : List Partial}
    {props : List (NexoraId × Props)}
    (h : executePathJoin router orders arrange spec = .ok (partials, props)) :
    ∃ sources, router.scanNodeIds (spec.nodes.head?.elim [] PathNode.labels) = .ok sources ∧
      partials.Perm (pathsFrom router spec.nodes 0 spec.hops (sources.map fun s => [s])) ∧
      props.Perm ((toFetch spec partials).filterMap fun id =>
        ((router.fetchProps id).map fun p => (id, p)).toOption) := by
  obtain ⟨sources, hsources, ⟨-, rfl⟩, -, rfl⟩ := (executePathJoin_eq_ok_iff router orders).mp h
  refine ⟨sources, hsources, finalPartials_perm router orders _, (succeeded_perm _ _).trans ?_⟩
  rw [fetches, filterMap_map]
  exact (harrange _).filterMap _

/-- Two sources with the same two neighbours. -/
def twoEnds : Router String Unit where
  scanNodeIds _ := .ok [⟨[0]⟩, ⟨[1]⟩]
  expandHop _ _ := .ok [⟨[2]⟩, ⟨[3]⟩]
  fetchProps _ := .ok []

theorem executePathJoin_perm_twoEnds :
    [[⟨[1]⟩, ⟨[2]⟩], [⟨[1]⟩, ⟨[3]⟩], [⟨[0]⟩, ⟨[2]⟩], [⟨[0]⟩, ⟨[3]⟩]].Perm
      (pathsFrom twoEnds oneHop.nodes 0 oneHop.hops [[⟨[0]⟩], [⟨[1]⟩]]) := by
  obtain ⟨_, hsources, hpaths, -⟩ :=
    executePathJoin_perm twoEnds (fun _ => [1]) id (fun _ => .refl _) oneHop rfl
  cases hsources
  exact hpaths

end Nexora.PathJoin
