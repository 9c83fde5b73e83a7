import Nexora.Graph.Replay

/-!
# Edges and their properties

A node keeps its half-edges in one set and the properties of its outgoing edges in a map. Removing
an edge leaves its properties, and setting a property does not ask for the edge. The properties
belong to edges exactly as long as no such step is taken.
-/

namespace Nexora
open Lib

inductive EdgeOperation where
  | addEdge (edge : HalfEdge)
  | removeEdge (edge : HalfEdge)
  | setEdgeProperty (edgeType : Symbol) (dst : NexoraId) (key : Symbol) (value : PropertyValue)
  | deleteNode (tombstone : TombstoneRecord)

def EdgeOperation.op : EdgeOperation → MutationOp
  | .addEdge edge => .addEdge edge
  | .removeEdge edge => .removeEdge edge
  | .setEdgeProperty edgeType dst key value => .edgePropertySet edgeType dst key value
  | .deleteNode tombstone => .deleteNode tombstone

namespace NodeState

def edgeStep (s : NodeState) (operation : EdgeOperation × EventTime) : NodeState :=
  (operation.1.op.apply s operation.2).1

/-- Every key of the edge properties names an outgoing edge that is there. -/
def EdgePropertiesBelong (s : NodeState) : Prop :=
  ∀ edgeType dst, (edgeType, dst) ∈ s.edgeProperties → ⟨edgeType, .out, dst⟩ ∈ s.edges

/-- A property is set on an edge that is there, and an outgoing edge is removed when it has no
properties. -/
def EdgeStepOk (s : NodeState) (operation : EdgeOperation × EventTime) : Prop :=
  match operation.1 with
  | .setEdgeProperty edgeType dst _ _ => ⟨edgeType, .out, dst⟩ ∈ s.edges
  | .removeEdge edge => edge.direction = .out → (edge.edgeType, edge.other) ∉ s.edgeProperties
  | _ => True

/-! ### What one operation does -/

section
variable (s : NodeState) (edge : HalfEdge) (time : EventTime)

theorem edgeStep_addEdge : s.edgeStep (.addEdge edge, time) = s.insertEdge edge :=
  MutationOp.fst_apply_addEdge s time edge

theorem edgeStep_removeEdge :
    s.edgeStep (.removeEdge edge, time) = s.removeEdge edge :=
  MutationOp.fst_apply_removeEdge s time edge

end

theorem mem_edgeProperties_insertEdgeProperty (s : NodeState) (edgeType : Symbol) (dst : NexoraId)
    (key : Symbol) (value : PropertyValue) (edge : Symbol × NexoraId) :
    edge ∈ (s.insertEdgeProperty edgeType dst key value).edgeProperties ↔
      edge = (edgeType, dst) ∨ edge ∈ s.edgeProperties := Finmap.mem_insert

variable {operation : EdgeOperation × EventTime} {s : NodeState}

theorem EdgePropertiesBelong.edgeStep (h : s.EdgePropertiesBelong)
    (hok : s.EdgeStepOk operation) : (s.edgeStep operation).EdgePropertiesBelong := by
  obtain ⟨operation, time⟩ := operation
  cases operation with
  | addEdge edge =>
    rw [edgeStep_addEdge]
    exact fun edgeType dst hmem => Finset.mem_insert_of_mem (h edgeType dst hmem)
  | removeEdge edge =>
    rw [edgeStep_removeEdge]
    intro edgeType dst hmem
    refine Finset.mem_erase.mpr ⟨?_, h edgeType dst hmem⟩
    rintro rfl
    exact hok rfl hmem
  | setEdgeProperty edgeType dst key value =>
    intro edgeType' dst' hmem
    rcases (mem_edgeProperties_insertEdgeProperty s edgeType dst key value _).mp hmem with heq | hmem
    · cases heq
      exact hok
    · exact h edgeType' dst' hmem
  | deleteNode tombstone => exact h

theorem not_edgePropertiesBelong_edgeStep (hok : ¬ s.EdgeStepOk operation) :
    ¬ (s.edgeStep operation).EdgePropertiesBelong := by
  obtain ⟨operation, time⟩ := operation
  cases operation with
  | addEdge edge => exact absurd trivial hok
  | removeEdge edge =>
    obtain ⟨edgeType, direction, other⟩ := edge
    simp only [EdgeStepOk, Classical.not_imp, not_not] at hok
    obtain ⟨rfl, hmem⟩ := hok
    rw [edgeStep_removeEdge]
    intro h
    exact absurd (h edgeType other hmem) (Finset.notMem_erase _ _)
  | setEdgeProperty edgeType dst key value =>
    intro h
    exact hok (h edgeType dst ((mem_edgeProperties_insertEdgeProperty s edgeType dst key value _).mpr (Or.inl rfl)))
  | deleteNode tombstone => exact absurd trivial hok

variable {edge : Symbol × NexoraId}

theorem not_mem_edgeProperties_edgeStep (h : edge ∉ s.edgeProperties)
    (hother : ∀ key value, operation.1 ≠ .setEdgeProperty edge.1 edge.2 key value) :
    edge ∉ (s.edgeStep operation).edgeProperties := by
  obtain ⟨operation, time⟩ := operation
  cases operation with
  | addEdge e =>
    rw [edgeStep_addEdge]
    exact h
  | removeEdge e =>
    rw [edgeStep_removeEdge]
    exact h
  | setEdgeProperty edgeType dst key value =>
    intro hmem
    rcases (mem_edgeProperties_insertEdgeProperty s edgeType dst key value _).mp hmem with rfl | hmem
    · exact hother key value rfl
    · exact h hmem
  | deleteNode tombstone => exact h

/-! ### Runs -/

theorem edgePropertiesBelong_empty : empty.EdgePropertiesBelong :=
  fun _ _ hmem => absurd hmem Finmap.notMem_empty

theorem not_mem_edgeProperties_run (h : edge ∉ s.edgeProperties)
    {operations : List (EdgeOperation × EventTime)}
    (hother : ∀ operation ∈ operations, ∀ key value, operation.1 ≠ .setEdgeProperty edge.1 edge.2 key value) :
    edge ∉ (run edgeStep s operations).edgeProperties := by
  induction operations generalizing s with
  | nil => exact h
  | cons operation operations ih =>
    obtain ⟨hfirst, hrest⟩ := List.forall_mem_cons.mp hother
    exact ih (not_mem_edgeProperties_edgeStep h hfirst) hrest

/-- **Edge properties belong to edges** in every state that operations on a new node lead to exactly
when every property is set on an edge that is there and every edge is removed without properties. An
edge that is added again then has none. -/
theorem edgePropertiesBelong_take_iff (operations : List (EdgeOperation × EventTime)) :
    ((∀ k, (run edgeStep empty (operations.take k)).EdgePropertiesBelong) ↔ Along edgeStep EdgeStepOk empty operations) ∧
      (Along edgeStep EdgeStepOk empty operations → ∀ before edgeType dst time after,
        operations = before ++ (.removeEdge ⟨edgeType, .out, dst⟩, time) :: after →
        (∀ operation ∈ after, ∀ key value, operation.1 ≠ .setEdgeProperty edgeType dst key value) →
        (run edgeStep empty operations).edgeProperties.lookup (edgeType, dst) = none) := by
  constructor
  · exact forall_take_iff_along (fun s operation h hok => h.edgeStep hok) (fun s h => h)
      (fun s operation _ hok => not_edgePropertiesBelong_edgeStep hok) edgePropertiesBelong_empty operations
  · rintro halong before edgeType dst time after rfl hother
    have hremove := (along_append.mp halong).2.1
    rw [run_append, run_cons]
    refine Finmap.lookup_eq_none.mpr (not_mem_edgeProperties_run ?_ hother)
    rw [edgeStep_removeEdge]
    exact hremove rfl

/-- A property is set on an edge, and the edge is removed and added again: the property is still
there, on an edge that was never given it. -/
theorem edge_property_survives :
    let steps : List (EdgeOperation × EventTime) := [(.addEdge ⟨"KNOWS", .out, ⟨[2]⟩⟩, 1),
      (.setEdgeProperty "KNOWS" ⟨[2]⟩ "since" (.boolean true), 2),
      (.removeEdge ⟨"KNOWS", .out, ⟨[2]⟩⟩, 3)]
    let s := run edgeStep empty steps
    let again := run edgeStep empty (steps ++ [(.addEdge ⟨"KNOWS", .out, ⟨[2]⟩⟩, 4)])
    s.edges = ∅ ∧ ¬ s.EdgePropertiesBelong ∧
      (again.edgeProperties.lookup ("KNOWS", ⟨[2]⟩)).bind (fun properties =>
        properties.lookup "since") = some (.boolean true) := by
  refine ⟨by decide, fun h => ?_, rfl⟩
  exact absurd (h "KNOWS" ⟨[2]⟩ (by decide)) (by decide)

end NodeState
end Nexora
