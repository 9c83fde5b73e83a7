import Nexora.Lib.Bytes
import Nexora.Lib.Table
import Mathlib.Data.Prod.Lex
import Mathlib.Data.String.Basic

/-!
# Time travel

A query for the state as of some time replays the lines of the fragments that begin before it
(`nexora-fragment/src/time_travel.rs`). `read` stands for `serde_json::from_str` on a line with
`json_to_property_value` on its values: a line that it cannot read is skipped, as a blank one is.
A node has the bytes of its id for its name.
-/

namespace Nexora.Fragment
open Lib

/-! ### Fragments -/

@[ext] structure FragmentId where
  startUs : Nat
  endUs : Nat
  uuid : Nat

namespace FragmentId

def key (id : FragmentId) : Nat ×ₗ Nat ×ₗ Nat := toLex (id.startUs, toLex (id.endUs, id.uuid))

theorem key_injective : Function.Injective key := by
  rintro ⟨_, _, _⟩ ⟨_, _, _⟩ h
  simpa [key] using h

instance : LinearOrder FragmentId := LinearOrder.lift' key key_injective

theorem lt_of_startUs_lt {a b : FragmentId} (h : a.startUs < b.startUs) : a < b :=
  Prod.Lex.toLex_lt_toLex.mpr (.inl h)

def overlaps (id : FragmentId) (queryStart queryEnd : Nat) : Bool :=
  id.startUs < queryEnd && id.endUs > queryStart

end FragmentId

inductive PropertyCondition (V F : Type) where
  | greaterThan (threshold : F)
  | lessThan (threshold : F)
  | equals (value : V)
  | exists
  | isNull

/-- What the conditions need of the values: the number that a value is, the order of numbers and
the equality of values. -/
structure Comparisons (V F : Type) where
  asF64 : V → Option F
  lt : F → F → Bool
  eq : V → V → Bool

def natComparisons : Comparisons Nat Nat :=
  ⟨some, fun a b => decide (a < b), fun a b => decide (a = b)⟩

structure PropertyStats (V : Type) where
  nonNullCount : Nat
  nullCount : Nat
  minValue : Option V
  maxValue : Option V

structure FragmentMetadata (V : Type) where
  nodeCount : Nat := 0
  propertyStats : Table String (PropertyStats V) := Table.empty
  namespaceName : String
  isConsolidated : Bool := false

/-- Whether the statistics leave open that a node meets the condition. -/
def FragmentMetadata.mightMatchProperty {V F : Type} (cmp : Comparisons V F)
    (m : FragmentMetadata V) (key : String) (condition : PropertyCondition V F) : Bool :=
  match m.propertyStats.find? key with
  | none => false
  | some stats =>
    match condition with
    | .greaterThan threshold =>
      ((stats.maxValue.bind cmp.asF64).map fun max => cmp.lt threshold max).getD true
    | .lessThan threshold =>
      ((stats.minValue.bind cmp.asF64).map fun min => cmp.lt min threshold).getD true
    | .equals _ => true
    | .exists => stats.nonNullCount > 0
    | .isNull => stats.nullCount > 0

structure Edge where
  edgeType : String
  direction : String
  other : List UInt8
deriving DecidableEq

/-- The record of a node in a line, with the values `J` of its properties. -/
structure Entry (J : Type) where
  id : List UInt8
  timestamp : Option Nat
  properties : Table String J
  edges : List Edge

/-- The registered fragments, and for each directory the lines of its `nodes.jsonl`, if the file is
there. -/
structure FragmentStore (L V : Type) where
  fragments : Table FragmentId (FragmentMetadata V)
  nodesFile : FragmentId → Option (List L)

/-! ### Queries -/

structure TimeTravelQuery (V F : Type) where
  asOfUs : Nat
  namespaceName : Option String := none
  nodeId : Option (List UInt8) := none
  propertyFilter : Option (String × PropertyCondition V F) := none

def TimeTravelQuery.asOf {V F : Type} (asOfUs : Nat) : TimeTravelQuery V F := { asOfUs := asOfUs }

structure EdgeSnapshot where
  edge : Edge
  timestamp : Nat
deriving DecidableEq

structure NodeSnapshot (V : Type) where
  timestamp : Nat := 0
  properties : Table String V := Table.empty
  edges : List EdgeSnapshot := []

namespace NodeSnapshot
variable {V F : Type}

def applyEntry (snapshot : NodeSnapshot V) (stamped : Nat × Entry V) : NodeSnapshot V where
  timestamp := max snapshot.timestamp stamped.1
  properties := snapshot.properties.putAll stamped.2.properties.rows
  edges := snapshot.edges ++ stamped.2.edges.map (⟨·, stamped.1⟩)

def meets (cmp : Comparisons V F) (snapshot : NodeSnapshot V) (key : String) :
    PropertyCondition V F → Bool
  | .exists => (snapshot.properties.find? key).isSome
  | .isNull => (snapshot.properties.find? key).isNone
  | .greaterThan threshold =>
    (((snapshot.properties.find? key).bind cmp.asF64).map fun v => cmp.lt threshold v).getD false
  | .lessThan threshold =>
    (((snapshot.properties.find? key).bind cmp.asF64).map fun v => cmp.lt v threshold).getD false
  | .equals value => ((snapshot.properties.find? key).map fun v => cmp.eq v value).getD false

end NodeSnapshot

/-- The nodes of the entries that are replayed. -/
def replay {V : Type} (stamped : List (Nat × Entry V)) : Table (List UInt8) (NodeSnapshot V) :=
  Table.upsertAll (fun stamped => stamped.2.id) {} NodeSnapshot.applyEntry Table.empty stamped

namespace TimeTravelQuery
variable {L V F : Type} (cmp : Comparisons V F) (read : L → Option (Entry V))
  (q : TimeTravelQuery V F)

def selects (row : FragmentId × FragmentMetadata V) : Bool :=
  row.1.overlaps 0 q.asOfUs &&
    (q.namespaceName.map fun name => decide (row.2.namespaceName = name)).getD true &&
    (q.propertyFilter.map fun filter => row.2.mightMatchProperty cmp filter.1 filter.2).getD true

/-- An entry of a fragment with its time, if the query is to see it. The end of the fragment stands
in for a missing time. -/
def sees (endUs : Nat) (entry : Entry V) : Option (Nat × Entry V) :=
  if (q.nodeId.map fun id => decide (entry.id = id)).getD true &&
      entry.timestamp.getD endUs ≤ q.asOfUs then
    some (entry.timestamp.getD endUs, entry)
  else none

theorem sees_asOf (asOfUs endUs : Nat) (entry : Entry V) :
    (asOf asOfUs : TimeTravelQuery V F).sees endUs entry =
      if entry.timestamp.getD endUs ≤ asOfUs then some (entry.timestamp.getD endUs, entry)
      else none := by
  by_cases h : entry.timestamp.getD endUs ≤ asOfUs <;> simp [sees, asOf, h]

theorem selects_asOf (asOfUs : Nat) (row : FragmentId × FragmentMetadata V) :
    (asOf asOfUs : TimeTravelQuery V F).selects cmp row = row.1.overlaps 0 asOfUs := by
  simp [selects, asOf]

/-- What the query sees of the lines of a fragment that ends at this time. -/
def seesLines (endUs : Nat) (lines : List L) : List (Nat × Entry V) :=
  lines.filterMap fun line => (read line).bind (q.sees endUs)

def replayed (store : FragmentStore L V) : List (Nat × Entry V) :=
  (store.fragments.rows.filter (q.selects cmp)).flatMap fun row =>
    q.seesLines read row.1.endUs ((store.nodesFile row.1).getD [])

def replayedOf (files : FragmentId → Option (List L)) (row : FragmentId × FragmentMetadata V) :
    List (Nat × Entry V) :=
  if q.selects cmp row then q.seesLines read row.1.endUs ((files row.1).getD []) else []

theorem replayed_eq_flatMap (store : FragmentStore L V) :
    q.replayed cmp read store =
      store.fragments.rows.flatMap (q.replayedOf cmp read store.nodesFile) := by
  unfold replayed replayedOf
  induction store.fragments.rows with
  | nil => rfl
  | cons row rows ih =>
    rw [List.filter_cons, List.flatMap_cons, ← ih]
    split <;> rfl

/-- Whether a node is in the result. -/
def keeps (snapshot : NodeSnapshot V) : Bool :=
  (q.propertyFilter.map fun filter => snapshot.meets cmp filter.1 filter.2).getD true

def executeTimeTravel (store : FragmentStore L V) : List (List UInt8 × NodeSnapshot V) :=
  (replay (q.replayed cmp read store)).rows.filter fun row => q.keeps cmp row.2

def findNode (nodes : List (List UInt8 × NodeSnapshot V)) (id : List UInt8) :
    Option (NodeSnapshot V) :=
  (nodes.find? fun row => row.1 = id).map Prod.snd

-- The two sides decide the equality of ids in different ways.
private theorem findNode_rows (nodes : Table (List UInt8) (NodeSnapshot V)) (id : List UInt8) :
    findNode nodes.rows id = nodes.find? id := by
  unfold findNode Table.find?
  congr!

end TimeTravelQuery

/-! ### What entries do to a node -/

section Effect
open List Option Table NodeSnapshot TimeTravelQuery
variable {L V F : Type} {stamped more : List (Nat × Entry V)}

/-- The entries of a node. -/
def ofNode (id : List UInt8) (stamped : List (Nat × Entry V)) : List (Nat × Entry V) :=
  stamped.filter fun a => a.2.id = id

def snapshotOf (stamped : List (Nat × Entry V)) : NodeSnapshot V := stamped.foldl applyEntry {}

theorem find?_replay (stamped : List (Nat × Entry V)) (id : List UInt8) :
    (replay stamped).find? id =
      if ofNode id stamped = [] then none else some (snapshotOf (ofNode id stamped)) := by
  rw [replay, Table.find?_upsertAll]
  unfold ofNode snapshotOf
  congr!

def latest (stamped : List (Nat × Entry V)) : Nat := (stamped.map Prod.fst).foldl max 0

/-- The entries make a node that is in the result. -/
def Answers (keeps : NodeSnapshot V → Bool) (stamped : List (Nat × Entry V)) : Prop :=
  stamped ≠ [] ∧ keeps (snapshotOf stamped) = true

theorem findNode_executeTimeTravel (cmp : Comparisons V F) (read : L → Option (Entry V))
    {q : TimeTravelQuery V F} (h : q.propertyFilter = none) (store : FragmentStore L V)
    (id : List UInt8) : findNode (q.executeTimeTravel cmp read store) id =
      if ofNode id (q.replayed cmp read store) = [] then none
      else some (snapshotOf (ofNode id (q.replayed cmp read store))) := by
  have hkeeps : ∀ snapshot, q.keeps cmp snapshot = true := fun snapshot => by simp [keeps, h]
  rw [executeTimeTravel]
  simp only [hkeeps, filter_true]
  rw [findNode_rows, find?_replay]

end Effect

/-! ### Filters on properties -/

section Filter
open List Option Table NodeSnapshot FragmentMetadata
variable {L V F : Type} (cmp : Comparisons V F) (read : L → Option (Entry V))

namespace TimeTravelQuery
variable (q : TimeTravelQuery V F) (store : FragmentStore L V) (key : String)
  (condition : PropertyCondition V F)

end TimeTravelQuery
end Filter
end Nexora.Fragment
