import Mathlib.Data.List.Basic

/-!
# Patterns of standing queries

What a pattern means in a graph, and what `matches_with_edges` makes of it
(`nexora-standing-query/src/pattern.rs`). The code looks for labels in a property, takes the target
of an edge for its properties alone, and follows a path of variable length to each node only once.
Patterns in which none of this matters are plain.
-/

namespace Nexora.StandingQuery
open List
variable {N V : Type}

structure HalfEdge (N : Type) where
  edgeType : String
  out : Bool
  other : N
deriving DecidableEq

structure Graph (N V : Type) where
  properties : N → String → Option V
  labels : N → List String
  edges : N → List (HalfEdge N)

inductive EdgeDirection where
  | out
  | incoming
  | both

def edgeMatches (edge : HalfEdge N) (edgeType : String) (direction : EdgeDirection) : Bool :=
  edge.edgeType = edgeType &&
    match direction with
    | .out => edge.out
    | .incoming => !edge.out
    | .both => true

/-- The nodes at the other ends of the edges that match. -/
def Graph.targets (g : Graph N V) (edgeType : String) (direction : EdgeDirection) (n : N) :
    List N :=
  ((g.edges n).filter (edgeMatches · edgeType direction)).map HalfEdge.other

mutual

/-- A condition on a property is a predicate here. -/
inductive Pattern (V : Type) where
  | propertyFilter (key : String) (condition : Option V → Bool)
  | labelFilter (labels : List String)
  | edgePattern (edge : EdgePattern V)
  | and (patterns : List (Pattern V))
  | or (patterns : List (Pattern V))
  | not (pattern : Pattern V)

inductive EdgePattern (V : Type) where
  | mk (edgeType : String) (direction : EdgeDirection) (targetPattern : Option (Pattern V))
      (next : Option (EdgePattern V)) (minHops maxHops : Option Nat)

end

/-! ### What a pattern means -/

/-- A path with at least `min` and at most `max` edges leads to an end. -/
def walks (targets : N → List N) (ends : N → Bool) : Nat → Nat → N → Bool
  | min, 0, n => min = 0 && ends n
  | min, max + 1, n => (min = 0 && ends n) || (targets n).any (walks targets ends (min - 1) max)

section Holds
variable (g : Graph N V)
mutual

def Pattern.holds (n : N) : Pattern V → Bool
  | .propertyFilter key condition => condition (g.properties n key)
  | .labelFilter labels => labels.all fun label => (g.labels n).contains label
  | .edgePattern edge => edge.holds n
  | .and patterns => allHold n patterns
  | .or patterns => anyHolds n patterns
  | .not pattern => !pattern.holds n

def EdgePattern.holds (n : N) : EdgePattern V → Bool
  | .mk edgeType direction target next minHops maxHops =>
    let ends m := targetHolds m target && nextHolds m next
    match minHops, maxHops with
    | some min, some max => walks (g.targets edgeType direction) ends min max n
    | _, _ => (g.targets edgeType direction n).any ends

def targetHolds (n : N) : Option (Pattern V) → Bool
  | none => true
  | some pattern => pattern.holds n

def nextHolds (n : N) : Option (EdgePattern V) → Bool
  | none => true
  | some edge => edge.holds n

def allHold (n : N) : List (Pattern V) → Bool
  | [] => true
  | pattern :: patterns => pattern.holds n && allHold n patterns

def anyHolds (n : N) : List (Pattern V) → Bool
  | [] => false
  | pattern :: patterns => pattern.holds n || anyHolds n patterns

end
end Holds

/-! ### What is computed -/

section Eval
variable (property : String → Option V) (hasLabels : List String → Bool)
  (matchesEdge : EdgePattern V → Bool)
mutual

def Pattern.eval : Pattern V → Bool
  | .propertyFilter key condition => condition (property key)
  | .labelFilter labels => hasLabels labels
  | .edgePattern edge => matchesEdge edge
  | .and patterns => evalAll patterns
  | .or patterns => evalAny patterns
  | .not pattern => !pattern.eval

def evalAll : List (Pattern V) → Bool
  | [] => true
  | pattern :: patterns => pattern.eval && evalAll patterns

def evalAny : List (Pattern V) → Bool
  | [] => false
  | pattern :: patterns => pattern.eval || evalAny patterns

end
end Eval

section
variable (labelsOf : V → Option (List String))

/-- Labels are looked for in the property `labels`. `labelsOf` are the strings of a list. -/
def hasLabels (properties : String → Option V) (labels : List String) : Bool :=
  (((properties "labels").bind labelsOf).map fun found =>
    labels.all fun label => found.contains label).getD false

def Pattern.matches (properties : String → Option V) (pattern : Pattern V) : Bool :=
  pattern.eval properties (hasLabels labelsOf properties) fun _ => false

/-- The loop of `matches_variable_length`, from a node at a depth, with the nodes visited. What a
node pushes is popped, the last first, before what was on the stack before it. -/
def explore [DecidableEq N] (targets : N → List N) (accepts : Nat → N → Bool) :
    Nat → Nat → N → List N → Bool × List N
  | left, depth, n, visited =>
    if accepts depth n then (true, visited)
    else
      match left with
      | 0 => (false, visited)
      | left + 1 =>
        let pushed := (targets n).foldl
          (fun pushed m => if m ∈ visited ++ pushed then pushed else pushed ++ [m]) []
        pushed.reverse.foldl
          (fun found m =>
            if found.1 then found else explore targets accepts left (depth + 1) m found.2)
          (false, visited ++ pushed)

variable [DecidableEq N] (g : Graph N V)

mutual

def EdgePattern.matches (n : N) : EdgePattern V → Bool
  | .mk edgeType direction target next minHops maxHops =>
    let accepts m := target.all (Pattern.matches labelsOf (g.properties m))
    match minHops, maxHops with
    | some min, some max =>
      (explore (g.targets edgeType direction) (fun depth m => min ≤ depth && accepts m) max 0 n
        [n]).1
    | _, _ => (g.targets edgeType direction n).any fun m => accepts m && nextMatches m next

def nextMatches (n : N) : Option (EdgePattern V) → Bool
  | none => true
  | some edge => edge.matches n

end

def Pattern.matchesWithEdges (properties : String → Option V) (n : N) (pattern : Pattern V) :
    Bool :=
  pattern.eval properties (hasLabels labelsOf properties) (EdgePattern.matches labelsOf g n)

end

/-! ### Parts of a pattern -/

namespace Pattern
mutual

/-- Some part of the pattern that is no combination of others is such. -/
def anyPart (part : Pattern V → Bool) : Pattern V → Bool
  | and patterns => anyPartOf part patterns
  | or patterns => anyPartOf part patterns
  | not pattern => anyPart part pattern
  | pattern => part pattern

def anyPartOf (part : Pattern V → Bool) : List (Pattern V) → Bool
  | [] => false
  | pattern :: patterns => anyPart part pattern || anyPartOf part patterns

end

def patternMatchesLabel (label : String) : Pattern V → Bool := anyPart fun
  | labelFilter labels => labels.contains label
  | _ => false

def patternMatchesEdge (edgeType : String) : Pattern V → Bool := anyPart fun
  | edgePattern (.mk type _ _ _ _ _) => type = edgeType
  | _ => false

def patternNeedsEdges : Pattern V → Bool := anyPart fun
  | edgePattern _ => true
  | _ => false

/-- No label and no edge. -/
def flat (pattern : Pattern V) : Bool := !pattern.anyPart fun
  | labelFilter _ => true
  | edgePattern _ => true
  | _ => false

end Pattern

mutual

/-- Edges of single hops, whose targets have neither labels nor edges. -/
def EdgePattern.plain : EdgePattern V → Bool
  | .mk _ _ target next minHops maxHops =>
    !(minHops.isSome && maxHops.isSome) && target.all Pattern.flat && nextPlain next

def nextPlain : Option (EdgePattern V) → Bool
  | none => true
  | some edge => edge.plain

end

def Pattern.plain (pattern : Pattern V) : Bool := !pattern.anyPart fun
  | labelFilter _ => true
  | edgePattern edge => !edge.plain
  | _ => false

/-! ### Plain patterns -/

section Plain
variable {g : Graph N V} {n : N} {hasLabels : List String → Bool}
  {matchesEdge : EdgePattern V → Bool} {bad : Pattern V → Bool}
  (hlabels : ∀ labels, bad (.labelFilter labels) = true)
  (hedge : ∀ edge, bad (.edgePattern edge) = false → matchesEdge edge = edge.holds g n)
include hlabels hedge

set_option linter.unusedSectionVars false

mutual

theorem Pattern.eval_eq_holds : ∀ pattern : Pattern V, pattern.anyPart bad = false →
    pattern.eval (g.properties n) hasLabels matchesEdge = pattern.holds g n
  | .propertyFilter _ _, _ => rfl
  | .labelFilter labels, h => Bool.noConfusion ((hlabels labels).symm.trans h)
  | .edgePattern edge, h => hedge edge h
  | .and patterns, h => evalAll_eq_allHold patterns h
  | .or patterns, h => evalAny_eq_anyHolds patterns h
  | .not pattern, h => congrArg _ (pattern.eval_eq_holds h)

theorem evalAll_eq_allHold : ∀ patterns : List (Pattern V), Pattern.anyPartOf bad patterns = false →
    evalAll (g.properties n) hasLabels matchesEdge patterns = allHold g n patterns
  | [], _ => rfl
  | pattern :: patterns, h => by
    obtain ⟨hfirst, hrest⟩ := Bool.or_eq_false_iff.mp h
    exact congrArg₂ _ (pattern.eval_eq_holds hfirst) (evalAll_eq_allHold patterns hrest)

theorem evalAny_eq_anyHolds :
    ∀ patterns : List (Pattern V), Pattern.anyPartOf bad patterns = false →
    evalAny (g.properties n) hasLabels matchesEdge patterns = anyHolds g n patterns
  | [], _ => rfl
  | pattern :: patterns, h => by
    obtain ⟨hfirst, hrest⟩ := Bool.or_eq_false_iff.mp h
    exact congrArg₂ _ (pattern.eval_eq_holds hfirst) (evalAny_eq_anyHolds patterns hrest)

end
end Plain

section
variable (labelsOf : V → Option (List String)) (g : Graph N V)

theorem Pattern.matches_eq_holds {pattern : Pattern V} (h : pattern.flat = true) (n : N) :
    pattern.matches labelsOf (g.properties n) = pattern.holds g n := by
  refine eval_eq_holds (fun _ => rfl) (fun _ hbad => ?_) pattern (Bool.not_eq_true' _ ▸ h)
  cases hbad

variable [DecidableEq N]

mutual

theorem EdgePattern.matches_eq_holds : ∀ (edge : EdgePattern V) (n : N), edge.plain = true →
    edge.matches labelsOf g n = edge.holds g n
  | .mk edgeType direction target next minHops maxHops, n, h => by
    rw [EdgePattern.plain, Bool.and_eq_true, Bool.and_eq_true, Option.all_eq_true] at h
    obtain ⟨⟨hhops, htarget⟩, hnext⟩ := h
    have hends : ∀ m, (target.all (Pattern.matches labelsOf (g.properties m)) &&
        nextMatches labelsOf g m next) = (targetHolds g m target && nextHolds g m next) := by
      intro m
      rw [nextMatches_eq_nextHolds next m hnext]
      cases target with
      | none => rfl
      | some pattern => exact congrArg (· && _) (pattern.matches_eq_holds labelsOf g (htarget _ rfl) m)
    have hsingle : ∀ min max, minHops = some min → maxHops = some max → False := by
      rintro min max rfl rfl
      cases hhops
    rw [EdgePattern.matches, EdgePattern.holds]
    · simp only [hends]
    · exact hsingle
    · exact hsingle

theorem nextMatches_eq_nextHolds :
    ∀ (next : Option (EdgePattern V)) (n : N), nextPlain next = true →
    nextMatches labelsOf g n next = nextHolds g n next
  | none, _, _ => rfl
  | some edge, n, h => edge.matches_eq_holds n h

end

/-- **What is computed is what a plain pattern means.** -/
theorem Pattern.matchesWithEdges_eq_holds {pattern : Pattern V} (h : pattern.plain = true) (n : N) :
    pattern.matchesWithEdges labelsOf g (g.properties n) n = pattern.holds g n := by
  refine eval_eq_holds (fun _ => rfl) (fun edge hplain => ?_) pattern (Bool.not_eq_true' _ ▸ h)
  exact edge.matches_eq_holds labelsOf g n (Bool.not_eq_false' _ ▸ hplain)

end

end Nexora.StandingQuery
