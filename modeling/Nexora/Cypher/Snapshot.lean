import Nexora.Graph.LabelIndex
import Mathlib.Data.Finset.Sort

/-!
# The snapshot that a read query works on

The executor of read queries (`nexora-cypher/src/executor.rs`) loads a part of the graph: the nodes
with all the labels named, otherwise those with the first property constraint, otherwise every node.
The source numbers the loaded nodes; here a node goes by its id.
-/

namespace Nexora
open Lib

theorem NexoraId.bytes_injective : Function.Injective NexoraId.bytes := by
  rintro ⟨bytes⟩ ⟨bytes'⟩ h
  exact congrArg mk h

/-- The order of the bytes, which is that of the hexadecimal texts. -/
instance : LinearOrder NexoraId := LinearOrder.lift' NexoraId.bytes NexoraId.bytes_injective

instance NexoraId.isTrans_le : IsTrans NexoraId fun a b => a ≤ b := inferInstance

instance NexoraId.antisymm_le : Std.Antisymm fun a b : NexoraId => a ≤ b := inferInstance

abbrev Properties := Finmap fun _ : Symbol => PropertyValue

def PropertyValue.asStr : PropertyValue → Option String
  | .string s => some s
  | _ => none

def LabelIndex.queryAll (index : LabelIndex) : List Symbol → Finset NexoraId
  | [] => ∅
  | label :: labels => labels.foldl (fun result label => result ∩ index.nodes label) (index.nodes label)

theorem LabelIndex.mem_queryAll {index : LabelIndex} {labels : List Symbol} {qid : NexoraId}
    (hlabels : labels ≠ []) :
    qid ∈ index.queryAll labels ↔ ∀ label ∈ labels, qid ∈ index.nodes label := by
  have hfold : ∀ (labels : List Symbol) (start : Finset NexoraId),
      qid ∈ labels.foldl (fun result label => result ∩ index.nodes label) start ↔
        qid ∈ start ∧ ∀ label ∈ labels, qid ∈ index.nodes label := by
    intro labels
    induction labels with
    | nil => intro start; simp
    | cons label labels ih => intro start; rw [List.foldl_cons, ih, Finset.mem_inter, List.forall_mem_cons, and_assoc]
  cases labels with
  | nil => exact absurd rfl hlabels
  | cons label labels => rw [queryAll, hfold, List.forall_mem_cons]

namespace Cypher

/-! ### Queries -/

inductive Literal where
  | str (s : String)
  | int (i : Int64)
  | bool (b : Bool)
  | null
deriving DecidableEq

structure NodePattern where
  name : Option String
  labels : List Symbol
  props : List (Symbol × Literal)
deriving DecidableEq

inductive RelDirection where
  | outgoing
  | incoming
  | undirected
deriving DecidableEq

/-- A relationship of so many hops. Where a query sets no upper bound, the bound is the
evaluator's. -/
structure RelPattern where
  types : List Symbol
  direction : RelDirection
  minHops : Nat
  maxHops : Nat
deriving DecidableEq

structure Pattern where
  start : NodePattern
  rest : List (RelPattern × NodePattern)
deriving DecidableEq

/-- What a query does beside its matches is left to the evaluator. -/
inductive Clause where
  | matching (patterns : List Pattern)
  | other (text : String)
deriving DecidableEq

def Clause.patterns : Clause → List Pattern
  | .matching patterns => patterns
  | .other _ => []

structure Query where
  clauses : List Clause

def Query.patterns (query : Query) : List Pattern := query.clauses.flatMap Clause.patterns

def extractRelTypes (query : Query) : List Symbol :=
  query.patterns.flatMap fun pattern => pattern.rest.flatMap fun hop => hop.1.types

def extractNodeLabels (query : Query) : List Symbol :=
  query.patterns.flatMap fun pattern => pattern.start.labels ++ pattern.rest.flatMap fun hop => hop.2.labels

def literalToPropertyValue : Literal → PropertyValue
  | .str s => .string s
  | .int i => .integer i
  | .bool b => .boolean b
  | .null => .null

def extractNodePropertyFilter (query : Query) : Option (Symbol × PropertyValue) :=
  query.patterns.findSome? fun pattern =>
    pattern.start.props.head?.map fun constraint => (constraint.1, literalToPropertyValue constraint.2)

/-! ### Loading -/

/-- What the graph shows of a node, the labels and half-edges in the order in which it yields
them. -/
structure NodeReadState where
  labels : List Symbol
  properties : Properties
  edges : List HalfEdge
  edgeProperties : Finmap fun _ : Symbol × NexoraId => Properties

/-- What the executor asks the graph for. The property index lists a node once. -/
structure GraphReads where
  labelIndex : LabelIndex
  queryPropertyIndex : Symbol → PropertyValue → Except String (Finset NexoraId)
  allNodeIds : Except String (Finset NexoraId)
  readNodeState : NexoraId → Except String NodeReadState

inductive CypherError where
  | execution (message : String)
deriving DecidableEq

structure EdgeData where
  edgeType : Symbol
  target : NexoraId
  properties : Properties

structure NodeData where
  labels : List String
  properties : Properties
  outgoingEdges : List EdgeData

structure NexoraGraphSnapshot where
  nodes : List (NexoraId × NodeData)
  relTypes : List Symbol

def determineLabels (props : Properties) : List String :=
  match props.lookup "labels" with
  | some (.list labels) => labels.filterMap PropertyValue.asStr
  | _ =>
    match props.lookup "type" with
    | some (.string t) => [t]
    | _ => ["Node"]

/-- The properties of a loaded node; its labels are put among them. -/
def loadProperties (state : NodeReadState) : Properties :=
  if state.labels = [] then state.properties
  else state.properties.insert "labels" (.list (state.labels.map PropertyValue.string))

structure Wiring where
  seenEdges : Finset (NexoraId × Symbol × NexoraId)
  wired : List (NexoraId × EdgeData)
  relTypes : List Symbol

def edgeEnds (owner : NexoraId) (edge : HalfEdge) : NexoraId × NexoraId :=
  if edge.direction = .out then (owner, edge.other) else (edge.other, owner)

/-- A half-edge of a loaded node. Its other half may have wired the edge before, and an edge with an
end that is not loaded is passed over. The properties are those that the owner of the half-edge has
for it. -/
def wireEdge (ids : List NexoraId) (owner : NexoraId) (state : NodeReadState) (w : Wiring)
    (edge : HalfEdge) : Wiring :=
  let (source, target) := edgeEnds owner edge
  let relTypes := w.relTypes.insert edge.edgeType
  if edge.other ∉ ids ∨ (source, edge.edgeType, target) ∈ w.seenEdges then { w with relTypes := relTypes }
  else
    { seenEdges := insert (source, edge.edgeType, target) w.seenEdges
      wired := w.wired ++ [(source, ⟨edge.edgeType, target, (state.edgeProperties.lookup (edge.edgeType, target)).getD ∅⟩)]
      relTypes := relTypes }

def wireNode (ids : List NexoraId) (w : Wiring) (node : NexoraId × NodeReadState) : Wiring :=
  node.2.edges.foldl (wireEdge ids node.1 node.2) w

def wire (nodes : List (NexoraId × NodeReadState)) : Wiring :=
  nodes.foldl (wireNode (nodes.map Prod.fst)) ⟨∅, [], []⟩

def buildSnapshot (query : Query) (nodes : List (NexoraId × NodeReadState)) : NexoraGraphSnapshot :=
  let w := wire nodes
  { nodes := nodes.map fun node =>
      let properties := loadProperties node.2
      (node.1, ⟨determineLabels properties, properties, (w.wired.filter fun edge => edge.1 = node.1).map Prod.snd⟩)
    relTypes := if extractRelTypes query = [] then w.relTypes else extractRelTypes query }

namespace GraphReads

def nodeIds (g : GraphReads) (query : Query) : Except CypherError (Finset NexoraId) :=
  if extractNodeLabels query ≠ [] then .ok (g.labelIndex.queryAll (extractNodeLabels query))
  else
    match extractNodePropertyFilter query with
    | some (prop, value) =>
      match g.queryPropertyIndex prop value with
      | .ok ids => .ok ids
      | .error e => .error (.execution s!"Property index query failed: {e}")
    | none =>
      match g.allNodeIds with
      | .ok ids => .ok ids
      | .error e => .error (.execution s!"Failed to enumerate nodes: {e}")

def readNode (g : GraphReads) (qid : NexoraId) : Except CypherError (NexoraId × NodeReadState) :=
  match g.readNodeState qid with
  | .ok state => .ok (qid, state)
  | .error e => .error (.execution s!"Failed to read node: {e}")

def loadSnapshot (g : GraphReads) (query : Query) (ids : Finset NexoraId) :
    Except CypherError NexoraGraphSnapshot := do
  let nodes ← ids.sort.mapM g.readNode
  return buildSnapshot query nodes

def safeSnapshotLimit : Nat := 1000000

def fromGraph (g : GraphReads) (query : Query) (maxSnapshotNodes : Nat) :
    Except CypherError NexoraGraphSnapshot := do
  let ids ← g.nodeIds query
  let count := ids.card
  let limit := min maxSnapshotNodes safeSnapshotLimit
  if limit < count then
    throw (.execution (s!"Cypher snapshot contains {count} nodes, exceeding the safety limit of {limit}. " ++
      "Consider adding label or property filters to reduce the working set, " ++
      "or use streaming execution for large result sets."))
  g.loadSnapshot query ids

end GraphReads
end Cypher
end Nexora
